-- How a compilation ends: with a program, or with the failure of one stage.
-- Each stage has failures of its own kind: the order a cycle, and the slots
-- their number.
import LogicWiring.Compile
import LogicWiring.Stage

namespace LogicWiring

theorem bind_eq_ok {ε α β : Type} {x : Except ε α} {f : α → Except ε β} {b : β} :
    (x >>= f) = .ok b ↔ ∃ a, x = .ok a ∧ f a = .ok b := by
  cases x with
  | error e => simp [bind, Except.bind]
  | ok a => simp [bind, Except.bind]

theorem bind_eq_error {ε α β : Type} {x : Except ε α} {f : α → Except ε β} {e : ε} :
    (x >>= f) = .error e ↔ x = .error e ∨ ∃ a, x = .ok a ∧ f a = .error e := by
  cases x with
  | error e' => simp [bind, Except.bind]
  | ok a => simp [bind, Except.bind]

theorem map_eq_ok {ε α β : Type} {x : Except ε α} {f : α → β} {b : β} :
    x.map f = .ok b ↔ ∃ a, x = .ok a ∧ f a = b := by
  cases x with
  | error e => simp [Except.map]
  | ok a => simp [Except.map]

theorem map_eq_error {ε α β : Type} {x : Except ε α} {f : α → β} {e : ε} :
    x.map f = .error e ↔ x = .error e := by
  cases x with
  | error e' => simp [Except.map]
  | ok a => simp [Except.map]

/-! ## Kinds of failures -/

/-- The stage that fails with this error. -/
def CompileError.stage : CompileError → Stage
  | cycle _ => .order
  | slotOverflow _ _ => .allocate
  | operandRange _ _ _ _ => .codegen

/-- A failure, if there is one, is of the kind of this stage. -/
def FailsIn {α : Type} (stage : Stage) (x : Except CompileError α) : Prop :=
  ∀ e, x = .error e → e.stage = stage

namespace FailsIn

variable {α : Type} {stage : Stage}

theorem ok (a : α) : FailsIn stage (.ok a) := by
  intro e he
  cases he

end FailsIn

namespace Graph

variable (g : Graph)

theorem evaluationOrder_failsIn : FailsIn .order g.evaluationOrder := by
  unfold evaluationOrder
  dsimp only
  split
  · rintro e ⟨⟩
    rfl
  · exact .ok _

theorem allocate_failsIn (order : List Nat) : FailsIn .allocate (g.allocate order) := by
  unfold allocate
  split
  · rintro e ⟨⟩
    rfl
  · exact .ok _

end Graph

/-! ## All stages -/

theorem compile_eq_ok {g : Graph} {p : Program} : compile g = .ok p ↔
    ∃ order m, g.normalize.graph.evaluationOrder = .ok order ∧
      g.normalize.graph.allocate order = .ok m ∧ g.normalize.graph.program order m = .ok p := by
  unfold compile
  constructor
  · intro h
    obtain ⟨order, ho, h⟩ := bind_eq_ok.1 h
    obtain ⟨m, hm, h⟩ := bind_eq_ok.1 h
    exact ⟨order, m, ho, hm, h⟩
  · rintro ⟨order, m, ho, hm, h⟩
    exact bind_eq_ok.2 ⟨order, ho, bind_eq_ok.2 ⟨m, hm, h⟩⟩

/-- With the order and the slots of the normalized graph at hand, only its program is left. -/
theorem compile_of_stages {g n : Graph} {order : List Nat} {m : SlotMap}
    (hn : g.normalize.graph = n) (ho : n.evaluationOrder = .ok order)
    (hm : n.allocate order = .ok m) : compile g = n.program order m := by
  subst hn
  simp only [compile, ho, hm, bind, Except.bind]

theorem compile_eq_error {g : Graph} {e : CompileError} : compile g = .error e ↔
    g.normalize.graph.evaluationOrder = .error e ∨
    ∃ order, g.normalize.graph.evaluationOrder = .ok order ∧
      (g.normalize.graph.allocate order = .error e ∨
      ∃ m, g.normalize.graph.allocate order = .ok m ∧
        g.normalize.graph.program order m = .error e) := by
  unfold compile
  simp only [bind_eq_error]

end LogicWiring
