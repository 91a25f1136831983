import HybridPlan.Domain.Bundled
import HybridPlan.Domain.Reader
import HybridPlan.Problem

set_option autoImplicit false

/-! # Loading a problem

The problem of a run is read from its domain file, which is looked up in two places. What is
found there is given as a function from paths, so that loading itself reads no files. -/

namespace HybridPlan

variable {α : Type} [Scalar α]

/-- Why something that is found at a path is no text. -/
inductive ReadFault where
  | directory
  | notUtf8
  | other (reason : String)
  deriving DecidableEq, Repr

def ReadFault.text : ReadFault → String
  | directory => "Is a directory (os error 21)"
  | notUtf8 => "stream did not contain valid UTF-8"
  | other reason => reason

/-- What is found at each path; none if there is nothing. -/
abbrev Files := String → Option (Except ReadFault String)

/-- The given files together with the bundled ones. -/
def Files.withBundled (files : Files) : Files := fun path =>
  match Bundled.files.find? fun (name, _) => Path.join Config.bundledDir name = path with
  | some (_, text) => some (.ok text)
  | none => files path

inductive LoadError (α : Type) [Scalar α] where
  | missing (name : String) (candidates : List String)
  | unreadable (path : String) (fault : ReadFault)
  | domain (e : DomainError)
  | dynamics (a : Arena α) (e : TransitionError)

def LoadError.message : LoadError α → Message
  | missing name candidates =>
    ({ title := s!"no translation file `{name}`" } : Message).note
      ("looked up: " ++ String.intercalate ", " candidates)
  | unreadable path fault => { title := s!"{path}: {fault.text}" }
  | domain e => e.message
  | dynamics a e => { title := e.message a }

/-- The text of the domain file of a configuration. -/
def Config.source (c : Config α) (files : Files) : Except (LoadError α) Source :=
  match c.domainFileCandidates.findSome? fun path => (files path).map (path, ·) with
  | none => .error (.missing c.domainFile c.domainFileCandidates)
  | some (path, .error fault) => .error (.unreadable path fault)
  | some (path, .ok text) => .ok ⟨text, some path⟩

/-- The problem of a configuration. -/
def Problem.load (c : Config α) (files : Files) : Except (LoadError α) (Problem α) := do
  let source ← c.source files
  let d ← (Domain.read source c.readSettings).mapError .domain
  (Problem.ofDomain d c).mapError fun (a, e) => .dynamics a e

end HybridPlan
