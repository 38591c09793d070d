/-
Loading printed declarations.

Loading reads a text through its declarations and comments only
(`loadWith_parse`). Of a text that declarations are printed to on one line these
are known, so such texts are loaded without being parsed (`load_eq_known`).
-/
import ProtoBind.Proofs.Results
import ProtoBind.Proofs.Source.OneLine
import ProtoBind.Schema.Loader

namespace ProtoBind.Schema

/-- Schema files with printed declarations. -/
def printedSources (files : List (String × List Source.Decl)) : Sources := files.map fun x => (x.1, Source.printed x.2)

namespace Load

/-- Loads a file, with a given way to find what is in a text. -/
def loadWith (parse : String → Except Source.ParseFault (List Source.Decl × List Source.Comment))
    (find : String → Option String) : (fuel : Nat) → (file : String) → (importer : Option String) → Load Unit
  | 0, file, _ => do throw (.cycle ((← get).loading ++ [file]))
  | fuel + 1, file, importer => do
    let s ← get
    if s.loaded.contains file then return
    if s.loading.contains file then throw (.cycle (s.loading ++ [file]))
    match ← readFile find file importer with
    | none => return
    | some text =>
      report ("Loading " ++ file)
      modify fun s => { s with loading := s.loading ++ [file] }
      let (decls, comments) ← ofParse file (parse text)
      for i in importsOf decls do
        loadWith parse find fuel i (some file)
      modify fun s => { s with graph := s.graph.addFile file }
      let context : Context := ⟨file, Source.DocIndex.build text.toList comments, dialectOf decls⟩
      addDeclarations context (packageOf decls) decls
      modify fun s => { s with loading := s.loading.dropLast, loaded := s.loaded ++ [file] }

theorem loadWith_parse [Source.CharacterNames] (find : String → Option String) (fuel : Nat) :
    loadWith Source.parse find fuel = load find fuel := by
  induction fuel with
  | zero => rfl
  | succ fuel ih =>
    funext file importer
    rw [loadWith, ih]
    rfl

/-- What is known to be in a text: printed declarations; any other text is parsed. -/
def known [Source.CharacterNames] (files : List (String × List Source.Decl)) (text : String) :
    Except Source.ParseFault (List Source.Decl × List Source.Comment) :=
  match files.find? (Source.printed ·.2 == text) with
  | some file => .ok (file.2, [])
  | none => Source.parse text

/-- **Declarations that are printed on one line are loaded as they are.** -/
theorem load_eq_known [Source.CharacterNames] (files : List (String × List Source.Decl))
    (h : (files.all fun x => Source.isOneLine x.2) = true) :
    load = loadWith (known files) := by
  have hparse : Source.parse = known files := by
    funext text
    rw [known]
    cases hfind : files.find? (Source.printed ·.2 == text) with
    | none => rfl
    | some file =>
      have htext : (Source.printed file.2 == text) = true := by simpa only using List.find?_some hfind
      rw [← eq_of_beq htext]
      exact Source.parse_oneLine (List.all_eq_true.mp h file (List.mem_of_find?_eq_some hfind))
  funext find fuel
  rw [← loadWith_parse, hparse]

end Load

end ProtoBind.Schema
