import Prototypal.Event
import Prototypal.Settings.Options
import Prototypal.Settings.Relaxed

/-!
# Prototypal — Settings — Project

Project files: relaxed JSON with a section of options (`Project`).  Loading a file can fail because
it cannot be read or because of what it says; an error tells where it was met
(`ProjectError.context`).
-/

namespace Prototypal

open Json Settings

/-- What a project file says: its section of options, if it has one. -/
structure Project where
  stated : Option Options := none
deriving DecidableEq, Repr

namespace Project

/-- The options of the project, the defaults if it has none. -/
def options (p : Project) : Options := p.stated.getD {}

/-- The section of options, which may be null. -/
def readSection (room : Nat) (s : List Char) : Reading (Option Options) :=
  match skipSpace s with
  | 'n' :: t => (readWord ['u', 'l', 'l'] t).map (none, ·)
  | _ =>
    match readOptions room s with
    | .ok (o, r) => .ok (some o, r)
    | .error f => .error f

theorem readSection_length_lt {room : Nat} {s r : List Char} {o : Option Options}
    (h : readSection room s = .ok (o, r)) : r.length < s.length := by
  unfold readSection at h
  split at h
  · next t he =>
    obtain ⟨x, hw, hx⟩ := map_eq_ok.mp h
    obtain ⟨-, rfl⟩ := Prod.mk.inj hx
    exact Nat.lt_of_le_of_lt (readWord_length_le hw) (length_lt_of_skipSpace he)
  · split at h
    · next ho =>
      cases h
      exact readRecord_length_lt ho
    · cases h

/-- The one field of a project. -/
def sectionField : RecordField Project where
  name := "analyzerOptions"
  read room s :=
    match readSection room s with
    | .ok (o, r) => .ok (fun _ => ⟨o⟩, r)
    | .error f => .error f
  length_lt h := by
    split at h
    · next hs =>
      cases h
      exact readSection_length_lt hs
    · cases h

/-- The project that a JSON text gives. -/
def read (room : Nat) (s : List Char) : Reading Project :=
  readRecord "ProjectConfig" [sectionField] {} room s

end Project

/-- Why a file cannot be read. -/
inductive FileFault where
  | missing
  | directory
  | notText
deriving DecidableEq, Repr

def FileFault.message : FileFault → String
  | missing => "No such file or directory (os error 2)"
  | directory => "Is a directory (os error 21)"
  | notText => "stream did not contain valid UTF-8"

/-- What is found under a path. -/
inductive FileContent where
  | missing
  | directory
  | bytes (content : ByteArray)

/-- The text of a file. -/
def FileContent.text : FileContent → Except FileFault String
  | missing => .error .missing
  | directory => .error .directory
  | bytes content =>
    match String.fromUTF8? content with
    | some s => .ok s
    | none => .error .notText

/-- Why a project cannot be had. -/
inductive ProjectError where
  | ofText (problem : Problem)
  | ofFile (path : String) (problem : Problem)
  | unreadable (path : String) (fault : FileFault)
deriving DecidableEq, Repr

/-- Where an error was met, outermost first. -/
def ProjectError.context : ProjectError → List String
  | ofText _ => ["failed to parse project JSON"]
  | ofFile path _ => ["failed to parse project file: " ++ path, "failed to parse project JSON"]
  | unreadable path _ => ["failed to read project file: " ++ path]

namespace Project

/-- The project that a text of relaxed JSON gives. -/
def parse (text : String) : Except ProjectError Project :=
  (readDocument read (Relaxed.normalize text.toList)).mapError .ofText

/-- The options that the project file at a path gives, and the report of having loaded them. -/
def loadOptions (path : String) (found : FileContent) :
    Except ProjectError (Options × List Event) :=
  match found.text with
  | .error fault => .error (.unreadable path fault)
  | .ok text =>
    match readDocument read (Relaxed.normalize text.toList) with
    | .error problem => .error (.ofFile path problem)
    | .ok project => .ok (project.options, [.optionsLoaded path project.options])

end Project

end Prototypal
