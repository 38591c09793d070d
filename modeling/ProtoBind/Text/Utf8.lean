/-
Text as bytes: UTF-8 and Latin-1.
-/
namespace ProtoBind.Text

def encodeUtf8 (s : String) : List UInt8 := s.toUTF8.data.toList

/-- The text that bytes stand for; nothing when they are not well-formed. -/
def decodeUtf8? (bs : List UInt8) : Option String := String.fromUTF8? ⟨bs.toArray⟩

theorem decodeUtf8?_encodeUtf8 (s : String) : decodeUtf8? (encodeUtf8 s) = some s := by
  simp only [decodeUtf8?, encodeUtf8, String.fromUTF8?, String.fromUTF8, Array.toArray_toList]
  exact dif_pos s.isValidUTF8

end ProtoBind.Text
