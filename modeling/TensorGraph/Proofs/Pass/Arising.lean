import TensorGraph.Proofs.Pass.Ruled

/-! The graphs that a caller can have: built by their methods, or what passes made of an accepted program, and so on
from there. Passes of any context keep such graphs well formed, so every program that is accepted on one is valid. -/
namespace TensorGraph

open Checked

theorem Discipline.admits_ruled (typed : Prop) : (Discipline.ruled anywhere typed).Admits where
  op _ := ⟨trivial, fun i none => by cases none⟩

/-- Whether new values have the types of persistent values plays no part in the rules of a graph. -/
theorem Graph.Sound.ruled {g : Graph} {rule : Op → Place → Prop} {typed : Prop} (sound : g.Sound (.ruled rule typed))
    (typed' : Prop) : g.Sound (.ruled rule typed') where
  node at_ := { sound.node at_ with }
  produced := sound.produced
  ordered := sound.ordered
  leaf := sound.leaf

namespace Program

variable {c : Context} {p : Program}

/-- Whatever a pass makes of a valid program is valid. -/
theorem pass_follows (valid : p.Valid (.ruled anywhere False)) (pass : PassName) :
    match pass.run c p with
    | .ok q => p.Follows q anywhere False
    | .error _ => True := by
  by_cases places : pass = .placement
  · subst places
    exact Placement.run_reaches (fun _ => trivial) (fun _ _ => trivial) valid fun _ _ _ _ _ => trivial
  · have keeps : c.Keeps anywhere True := c.keeps_anywhere
    have follows := PassName.run_follows keeps False.elim (fun _ => trivial) places valid
    revert follows
    cases pass.run c p with
    | error e => exact fun _ => trivial
    | ok q => exact id

theorem follows_of_runPasses (valid : p.Valid (.ruled anywhere False)) {passes : List PassName} {q : Program}
    {report : List PassReport} (ran : p.runPasses c passes = .ok (q, report)) : p.Follows q anywhere False := by
  induction passes generalizing p report with
  | nil =>
    cases ran
    exact .refl valid
  | cons pass passes ih =>
    have one := pass_follows (c := c) valid pass
    obtain ⟨next, report', first, later⟩ := runPasses_cons ran
    rw [first] at one
    exact one.trans (ih one.valid later)

end Program

namespace Graph

/-- Graphs that a caller can have. -/
inductive Arises : Graph → Prop where
  | empty (float : Kind) : Arises (Graph.empty float)
  | input {g : Graph} (arises : Arises g) (ty : Ty) (name : Option String) : Arises (g.input ty name).1
  | constant {g : Graph} (arises : Arises g) (t : Tensor) : Arises (g.constant t).1
  | shared {g : Graph} (arises : Arises g) (c : Cell) : Arises (g.shared c).1
  | apply {g : Graph} (arises : Arises g) (op : Op) (inputs : List VarId) : Arises (g.apply op inputs).1
  | passed {p q : Program} {c : Context} {passes : List PassName} {report : List PassReport} (arises : Arises p.graph)
    (accepted : p.validate = .ok ()) (ran : p.runPasses c passes = .ok (q, report)) : Arises q.graph

/-- What its methods build is a graph that a caller can have. -/
theorem Built.arises {g : Graph} (built : g.Built) : g.Arises := by
  induction built with
  | empty float => exact .empty float
  | input _ ty name arises => exact .input arises ty name
  | constant _ t arises => exact .constant arises t
  | shared _ c arises => exact .shared arises c
  | apply _ op inputs arises => exact .apply arises op inputs

/-- Every graph that a caller can have is well formed. -/
theorem Arises.sound {g : Graph} (arises : g.Arises) (typed : Prop) : g.Sound (.ruled anywhere typed) := by
  induction arises with
  | empty float => exact sound_empty float _
  | input _ ty name sound => exact sound.pushLeaf rfl trivial
  | constant _ t sound => exact sound.pushLeaf rfl ⟨trivial, rfl, rfl⟩
  | shared _ c sound => exact sound.pushLeaf rfl ⟨trivial, trivial, rfl, rfl⟩
  | apply _ op inputs sound => exact sound.apply (Discipline.admits_ruled typed) op inputs
  | passed _ accepted ran sound =>
    have valid := Program.valid_of_validate (sound.ruled False) accepted
    exact (Program.follows_of_runPasses valid ran).valid.graph.ruled typed

end Graph

/-- A program that is accepted on such a graph is valid. -/
theorem Program.valid_of_arises {p : Program} (arises : p.graph.Arises) (accepted : p.validate = .ok ()) :
    p.Valid (.ruled anywhere True) := valid_of_validate (arises.sound True) accepted

end TensorGraph
