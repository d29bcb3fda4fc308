-- A fresh id: the base itself if it is free, else the base with the smallest
-- free number after it. Main statement: the id that comes out is free.

namespace LogicWiring

/-- The base, then the base numbered 1, 2, … as far as there are taken ids. One of
these is free, for they are one more than the taken ids. The numbers have no bound; a
counter of 32 bits with a sign does as well for fewer than 2 ^ 31 taken ids. -/
def idCandidates (base : String) (taken : List String) : List String :=
  base :: (List.range taken.length).map fun n => base ++ (n + 1).repr

def freshId (base : String) (taken : List String) : String :=
  ((idCandidates base taken).find? fun id => decide (id ∉ taken)).getD base

theorem repr_inj {m n : Nat} (h : m.repr = n.repr) : m = n := by
  have hd : Nat.toDigits 10 m = Nat.toDigits 10 n := String.ofList_injective h
  have := congrArg (fun l => Nat.ofDigitChars 10 l 0) hd
  simpa [Nat.ofDigitChars_toDigits] using this

theorem append_repr_ne_self (base : String) (n : Nat) : base ++ n.repr ≠ base := by
  intro h
  have hl := congrArg String.length h
  have hp : 0 < (Nat.toDigits 10 n).length := Nat.length_toDigits_pos
  have hr : n.repr.length = (Nat.toDigits 10 n).length := String.length_ofList
  rw [String.length_append] at hl
  omega

theorem idCandidates_nodup (base : String) (taken : List String) :
    (idCandidates base taken).Nodup := by
  refine List.nodup_cons.2 ⟨?_, ?_⟩
  · intro h
    obtain ⟨n, -, hn⟩ := List.mem_map.1 h
    exact append_repr_ne_self base _ hn
  · refine List.Pairwise.map _ ?_ (List.nodup_range (n := taken.length))
    intro m n hmn h
    have := repr_inj ((String.append_right_inj base).1 h)
    omega

theorem freshId_not_mem (base : String) (taken : List String) : freshId base taken ∉ taken := by
  unfold freshId
  cases hf : (idCandidates base taken).find? fun id => decide (id ∉ taken) with
  | some id => simpa using List.find?_some hf
  | none =>
    have hsub : idCandidates base taken ⊆ taken := by
      intro id hid
      simpa using List.find?_eq_none.1 hf id hid
    have hlen := (idCandidates_nodup base taken).length_le_of_subset hsub
    simp only [idCandidates, List.length_cons, List.length_map, List.length_range] at hlen
    omega

end LogicWiring
