-- The order in which nodes are placed is one of a kind. The nodes without
-- drivers come first; each other node is released by the last of its drivers,
-- over the last edge from there, and the nodes follow one another as they are
-- released. Main statement: `evaluationOrder_canonical`.
import LogicWiring.Proofs.OrderFound
import Mathlib

namespace LogicWiring

/-! ## Lists -/

theorem exists_middle {α : Type} {xs ys zs ws : List α} (h : xs ++ ys = zs ++ ws)
    (hlen : xs.length ≤ zs.length) : ∃ middle, zs = xs ++ middle ∧ ys = middle ++ ws := by
  obtain ⟨middle, rfl⟩ := List.prefix_of_prefix_length_le ⟨ys, rfl⟩ ⟨ws, h.symm⟩ hlen
  rw [List.append_assoc] at h
  exact ⟨middle, rfl, List.append_cancel_left h⟩

/-- Lists of one length are equal if the same member comes next behind each common beginning. -/
theorem eq_of_same_next {α : Type} {l l' : List α} (hlen : l.length = l'.length)
    (h : ∀ before a after b after', l = before ++ a :: after → l' = before ++ b :: after' → a = b) :
    l = l' := by
  induction l generalizing l' with
  | nil => exact (List.eq_nil_of_length_eq_zero hlen.symm).symm
  | cons a l ih =>
    cases l' with
    | nil => cases hlen
    | cons b l' =>
      obtain rfl : a = b := h [] a l b l' rfl rfl
      congr 1
      refine ih (Nat.succ.inj hlen) fun before x after y after' hx hy => ?_
      exact h (a :: before) x after y after' (by rw [hx]; rfl) (by rw [hy]; rfl)

theorem rel_of_idxOf_lt {R : Nat → Nat → Prop} {l : List Nat} {a b : Nat} (h : l.Pairwise R)
    (hb : b ∈ l) (hlt : l.idxOf a < l.idxOf b) : R a b := by
  have hbl := List.idxOf_lt_length_of_mem hb
  have hrel := List.pairwise_iff_getElem.1 h _ _ (hlt.trans hbl) hbl hlt
  rwa [List.getElem_idxOf, List.getElem_idxOf] at hrel

/-! ## What becomes ready -/

/-- The targets that become ready are those of some of the edges, in the order of the edges,
each of them the last edge to its target. -/
theorem ready_of_last_edges {pending : List Nat} {edges : List (Nat × Nat)}
    (hcount : ∀ t, (edges.map Prod.fst).count t ≤ pending[t]?.getD 0)
    (hlt : edges.Pairwise fun a b => a.2 < b.2) :
    ∃ chosen : List (Nat × Nat), chosen.Sublist edges ∧
      (release pending (edges.map Prod.fst)).2 = chosen.map Prod.fst ∧
      ∀ x ∈ chosen, ∀ e, (x.1, e) ∈ edges → e ≤ x.2 := by
  induction edges generalizing pending with
  | nil => exact ⟨[], .slnil, rfl, by simp⟩
  | cons edge rest ih =>
    obtain ⟨t, e⟩ := edge
    obtain ⟨hfirst, hrest⟩ := List.pairwise_cons.1 hlt
    have hleft : ∀ j, (rest.map Prod.fst).count j ≤
        (pending.set t (pending[t]?.getD 0 - 1))[j]?.getD 0 := by
      intro j
      have hj := hcount j
      rw [List.map_cons, List.count_cons] at hj
      rw [getD_set_pred]
      simp only [beq_iff_eq] at hj
      omega
    obtain ⟨chosen, hsub, hready, hlast⟩ := ih hleft hrest
    have hlast' : ∀ x ∈ chosen, ∀ f, (x.1, f) ∈ (t, e) :: rest → f ≤ x.2 := by
      intro x hx f hf
      rcases List.mem_cons.1 hf with hf | hf
      · cases hf
        exact Nat.le_of_lt (hfirst x (hsub.subset hx))
      · exact hlast x hx f hf
    simp only [List.map_cons, release]
    split
    · -- nothing is left for the target, so no edge to it follows
      rename_i hone
      refine ⟨(t, e) :: chosen, hsub.cons_cons _, by rw [hready, List.map_cons], ?_⟩
      intro x hx f hf
      rcases List.mem_cons.1 hx with rfl | hx
      · rcases List.mem_cons.1 hf with hf | hf
        · cases hf
          exact Nat.le_refl _
        · have hpos : 0 < (rest.map Prod.fst).count t :=
            List.count_pos_iff.2 (List.mem_map_of_mem hf)
          have hnone := hcount t
          rw [List.map_cons, List.count_cons_self, hone] at hnone
          omega
      · exact hlast' x hx f hf
    · exact ⟨chosen, hsub.cons _, hready, hlast'⟩

namespace Graph

variable {g : Graph}

/-! ## Releases -/

/-- Edge `e` leads from the node at position `p` of the list to node `j`. -/
def EdgeFrom (g : Graph) (order : List Nat) (j p e : Nat) : Prop :=
  ∃ l, g.links[e]? = some l ∧ l.target = j ∧ order[p]? = some l.source

/-- Of the drivers of node `j` the last one in the list is at position `p`, and `e` is the
number of the last edge from there to `j`. -/
structure ReleasedAt (g : Graph) (order : List Nat) (j p e : Nat) : Prop where
  edge : g.EdgeFrom order j p e
  last_driver : ∀ q f, g.EdgeFrom order j q f → q ≤ p
  last_edge : ∀ f, g.EdgeFrom order j p f → f ≤ e

theorem ReleasedAt.unique {order : List Nat} {j p e q f : Nat} (h : g.ReleasedAt order j p e)
    (h' : g.ReleasedAt order j q f) : p = q ∧ e = f := by
  have hpq : p = q := Nat.le_antisymm (h'.last_driver p e h.edge) (h.last_driver q f h'.edge)
  subst hpq
  exact ⟨rfl, Nat.le_antisymm (h'.last_edge e h.edge) (h.last_edge f h'.edge)⟩

/-- Node `i` is released before node `j`: by an earlier driver, or by the same one over an
earlier edge. -/
def ReleasedBefore (g : Graph) (order : List Nat) (i j : Nat) : Prop :=
  ∃ p e q f, g.ReleasedAt order i p e ∧ g.ReleasedAt order j q f ∧ (p < q ∨ p = q ∧ e < f)

theorem ReleasedBefore.asymm {order : List Nat} {i j : Nat} (h : g.ReleasedBefore order i j) :
    ¬ g.ReleasedBefore order j i := by
  obtain ⟨p, e, q, f, hi, hj, hlt⟩ := h
  rintro ⟨q', f', p', e', hj', hi', hlt'⟩
  obtain ⟨rfl, rfl⟩ := hi.unique hi'
  obtain ⟨rfl, rfl⟩ := hj.unique hj'
  omega

/-! ## Only the drivers matter -/

/-- All drivers of the node are in the list. -/
def DriversIn (g : Graph) (order : List Nat) (j : Nat) : Prop := ∀ i, g.Feeds i j → i ∈ order

theorem edgeFrom_append_iff {before after : List Nat} {j p e : Nat}
    (hnd : (before ++ after).Nodup) (hj : g.DriversIn before j) :
    g.EdgeFrom (before ++ after) j p e ↔ g.EdgeFrom before j p e := by
  constructor
  · rintro ⟨l, hl, ht, hs⟩
    obtain ⟨q, hq⟩ := List.mem_iff_getElem?.1 (hj l.source ⟨l, List.mem_of_getElem? hl, rfl, ht⟩)
    have hlt : q < before.length := (List.getElem?_eq_some_iff.1 hq).1
    have hq' : (before ++ after)[q]? = some l.source := by rwa [List.getElem?_append_left hlt]
    have hqp : q = p := by
      apply (List.getElem?_inj (by rw [List.length_append]; omega) hnd).1
      rw [hq', hs]
    exact ⟨l, hl, ht, hqp ▸ hq⟩
  · rintro ⟨l, hl, ht, hs⟩
    have hlt : p < before.length := (List.getElem?_eq_some_iff.1 hs).1
    exact ⟨l, hl, ht, by rwa [List.getElem?_append_left hlt]⟩

/-- What stands behind all drivers of a node has no say in its release. -/
theorem releasedAt_append_iff {before after : List Nat} {j p e : Nat}
    (hnd : (before ++ after).Nodup) (hj : g.DriversIn before j) :
    g.ReleasedAt (before ++ after) j p e ↔ g.ReleasedAt before j p e := by
  have hedge := fun q f => edgeFrom_append_iff (p := q) (e := f) hnd hj
  constructor
  · rintro ⟨he, hd, hl⟩
    exact ⟨(hedge p e).1 he, fun q f h => hd q f ((hedge q f).2 h),
      fun f h => hl f ((hedge p f).2 h)⟩
  · rintro ⟨he, hd, hl⟩
    exact ⟨(hedge p e).2 he, fun q f h => hd q f ((hedge q f).1 h),
      fun f h => hl f ((hedge p f).1 h)⟩

theorem ReleasedAt.lt_length {order : List Nat} {j p e : Nat} (h : g.ReleasedAt order j p e) :
    p < order.length := by
  obtain ⟨l, -, -, hs⟩ := h.edge
  exact (List.getElem?_eq_some_iff.1 hs).1

/-! ## What one turn releases -/

/-- The edges that leave a node, each as its target and its number. -/
def edgesFrom (g : Graph) (i : Nat) : List (Nat × Nat) :=
  g.links.zipIdx.filterMap fun (l, e) => if l.source = i then some (l.target, e) else none

theorem targets_edgesFrom (i : Nat) : (g.edgesFrom i).map Prod.fst = g.successors i := by
  have hlinks : g.links = g.links.zipIdx.map Prod.fst := by simp
  unfold successors edgesFrom
  conv_rhs => rw [hlinks]
  rw [List.map_filterMap, List.filterMap_map]
  congr 1
  funext ⟨l, e⟩
  by_cases hs : l.source = i <;> simp [hs]

theorem mem_edgesFrom {i t e : Nat} :
    (t, e) ∈ g.edgesFrom i ↔ ∃ l, g.links[e]? = some l ∧ l.source = i ∧ l.target = t := by
  simp only [edgesFrom, List.mem_filterMap, Prod.exists, List.mem_zipIdx_iff_getElem?]
  constructor
  · rintro ⟨l, f, hl, hs⟩
    split at hs
    · cases hs
      exact ⟨l, hl, ‹_›, rfl⟩
    · cases hs
  · rintro ⟨l, hl, hs, rfl⟩
    exact ⟨l, e, hl, by simp [hs]⟩

theorem edgesFrom_increasing (i : Nat) : (g.edgesFrom i).Pairwise fun a b => a.2 < b.2 := by
  refine (zipIdx_increasing g.links).filterMap _ ?_
  rintro ⟨l, e⟩ ⟨l', e'⟩ hlt x hx y hy
  simp only [Option.ite_none_right_eq_some, Option.some.injEq] at hx hy
  obtain ⟨-, rfl⟩ := hx
  obtain ⟨-, rfl⟩ := hy
  exact hlt

theorem releasedAt_of_last_edge {done : List Nat} {i t e : Nat} (he : (t, e) ∈ g.edgesFrom i)
    (hlast : ∀ f, (t, f) ∈ g.edgesFrom i → f ≤ e) :
    g.ReleasedAt (done ++ [i]) t done.length e where
  edge := by
    obtain ⟨l, hl, rfl, ht⟩ := mem_edgesFrom.1 he
    exact ⟨l, hl, ht, by simp⟩
  last_driver := by
    rintro q f ⟨l, -, -, hs⟩
    have hlt := (List.getElem?_eq_some_iff.1 hs).1
    rw [List.length_append, List.length_singleton] at hlt
    omega
  last_edge := by
    rintro f ⟨l, hl, ht, hs⟩
    have hsource : i = l.source := by simpa using hs
    exact hlast f (mem_edgesFrom.2 ⟨l, hl, hsource.symm, ht⟩)

/-! ## Placing in turn -/

/-- The placed nodes and the queue are the nodes without drivers and then others, in the order
in which the placed nodes release them. -/
def InTurn (g : Graph) (done queue : List Nat) : Prop :=
  ∃ later, done ++ queue = g.roots ++ later ∧ later.Pairwise (g.ReleasedBefore done) ∧
    ∀ j ∈ later, ∃ p e, g.ReleasedAt done j p e

theorem inTurn_start : g.InTurn [] g.roots := ⟨[], by simp, .nil, by simp⟩

theorem Placing.driversIn {done queue pending : List Nat} {j : Nat}
    (h : g.Placing done queue pending) (hj : j ∈ done ++ queue) : g.DriversIn done j := by
  rintro i ⟨l, hl, rfl, rfl⟩
  exact source_mem_of_waitingFor hl ((h.mem_iff _).1 hj).2

/-- One turn: what is released goes behind all that was released before. -/
theorem InTurn.step {done rest pending : List Nat} {i : Nat} (h : g.InTurn done (i :: rest))
    (hp : g.Placing done (i :: rest) pending) :
    g.InTurn (done ++ [i]) (rest ++ (release pending (g.successors i)).2) := by
  obtain ⟨later, hsplit, hsorted, hreleased⟩ := h
  have hnd : (done ++ [i]).Nodup := by
    have hall := hp.nodup
    rw [List.append_cons] at hall
    exact (List.nodup_append.1 hall).1
  have hi : i ∉ done := notMem_before hnd
  have hcount : ∀ t, ((g.edgesFrom i).map Prod.fst).count t ≤ pending[t]?.getD 0 := by
    intro t
    rw [targets_edgesFrom, hp.counts]
    exact count_successors_le hi t
  obtain ⟨chosen, hsub, hready, hlast⟩ := ready_of_last_edges hcount (g.edgesFrom_increasing i)
  rw [targets_edgesFrom] at hready
  -- the placed node is a driver of none of the nodes that were released before
  have hkept : ∀ j ∈ later, ∀ p e, g.ReleasedAt done j p e → g.ReleasedAt (done ++ [i]) j p e := by
    intro j hj p e hjp
    have hmem : j ∈ done ++ i :: rest := by simp [hsplit, hj]
    exact (releasedAt_append_iff hnd (hp.driversIn hmem)).2 hjp
  have hnew : ∀ x ∈ chosen, g.ReleasedAt (done ++ [i]) x.1 done.length x.2 := fun x hx =>
    releasedAt_of_last_edge (hsub.subset hx) (hlast x hx)
  refine ⟨later ++ chosen.map Prod.fst, ?_, ?_, ?_⟩
  · rw [hready, ← List.append_assoc, ← List.append_assoc, ← hsplit]
    simp
  · refine List.pairwise_append.2 ⟨?_, ?_, ?_⟩
    · refine hsorted.imp_of_mem ?_
      rintro a b ha hb ⟨p, e, q, f, hap, hbq, hlt⟩
      exact ⟨p, e, q, f, hkept a ha p e hap, hkept b hb q f hbq, hlt⟩
    · refine List.pairwise_map.2 (((g.edgesFrom_increasing i).sublist hsub).imp_of_mem ?_)
      intro x y hx hy hlt
      exact ⟨_, _, _, _, hnew x hx, hnew y hy, .inr ⟨rfl, hlt⟩⟩
    · intro a ha b hb
      obtain ⟨p, e, hap⟩ := hreleased a ha
      obtain ⟨x, hx, rfl⟩ := List.mem_map.1 hb
      exact ⟨p, e, _, _, hkept a ha p e hap, hnew x hx, .inl hap.lt_length⟩
  · intro j hj
    rcases List.mem_append.1 hj with hj | hj
    · obtain ⟨p, e, hjp⟩ := hreleased j hj
      exact ⟨p, e, hkept j hj p e hjp⟩
    · obtain ⟨x, hx, rfl⟩ := List.mem_map.1 hj
      exact ⟨_, _, hnew x hx⟩

theorem InTurn.run {done queue pending : List Nat} (h : g.InTurn done queue)
    (hp : g.Placing done queue pending) : g.InTurn (done ++ (g.place pending queue).1) [] := by
  fun_induction g.place pending queue generalizing done with
  | case1 => simpa using h
  | case2 pending i rest released placed left hplace =>
    rename_i ih
    have hrun := ih (h.step hp) hp.step
    rw [hplace] at hrun
    simpa using hrun

/-! ## Canonical orders -/

/-- Every node once: first the nodes without drivers, in node order, and then the others, each
behind all those that are released before it. -/
structure Canonical (g : Graph) (order : List Nat) : Prop where
  perm : order.Perm (List.range g.nodes.length)
  in_turn : ∃ later, order = g.roots ++ later ∧ later.Pairwise (g.ReleasedBefore order)

theorem place_of_evaluationOrder {order : List Nat} (h : g.evaluationOrder = .ok order) :
    (g.place g.inDegrees g.roots).1 = order := by
  unfold evaluationOrder at h
  dsimp only at h
  split at h
  · cases h
  · exact Except.ok.inj h

theorem inTurn_of_evaluationOrder {order : List Nat} (h : g.evaluationOrder = .ok order) :
    g.InTurn order [] := by
  have hrun := (inTurn_start (g := g)).run placing_start
  rwa [List.nil_append, place_of_evaluationOrder h] at hrun

theorem canonical_of_evaluationOrder {order : List Nat} (h : g.evaluationOrder = .ok order) :
    g.Canonical order := by
  obtain ⟨later, hsplit, hsorted, -⟩ := inTurn_of_evaluationOrder h
  rw [List.append_nil] at hsplit
  exact ⟨(isOrder_of_evaluationOrder h).perm_range, later, hsplit, hsorted⟩

/-! ## Only one order is canonical -/

/-- Lists that begin alike release a node alike if they begin with all its drivers. -/
theorem releasedAt_congr {before after after' : List Nat} {j p e : Nat}
    (hnd : (before ++ after).Nodup) (hnd' : (before ++ after').Nodup) (hj : g.DriversIn before j) :
    g.ReleasedAt (before ++ after) j p e ↔ g.ReleasedAt (before ++ after') j p e :=
  (releasedAt_append_iff hnd hj).trans (releasedAt_append_iff hnd' hj).symm

/-- All drivers of a node are up to where it is released. -/
theorem ReleasedAt.driversIn {before after : List Nat} {j p e : Nat}
    (hall : ∀ i < g.nodes.length, i ∈ before ++ after) (h : g.ReleasedAt (before ++ after) j p e)
    (hp : p < before.length) : g.DriversIn before j := by
  intro i hi
  obtain ⟨q, hq⟩ := List.mem_iff_getElem?.1 (hall i (source_lt_of_feeds hi))
  obtain ⟨l, hl, rfl, ht⟩ := hi
  obtain ⟨f, hf⟩ := List.mem_iff_getElem?.1 hl
  have hle : q ≤ p := h.last_driver q f ⟨l, hf, ht, hq⟩
  rw [List.getElem?_append_left (by omega)] at hq
  exact List.mem_of_getElem? hq

theorem Canonical.mem_iff {order : List Nat} (h : g.Canonical order) (i : Nat) :
    i ∈ order ↔ i < g.nodes.length := by
  rw [h.perm.mem_iff, List.mem_range]

theorem Canonical.nodup {order : List Nat} (h : g.Canonical order) : order.Nodup :=
  h.perm.nodup_iff.2 List.nodup_range

/-- Behind the nodes without drivers, a node is released before all that stand after it. -/
theorem Canonical.releasedBefore {order before after : List Nat} {a b : Nat}
    (h : g.Canonical order) (hsplit : order = before ++ a :: after)
    (hroots : g.roots.length ≤ before.length) (hb : b ∈ after) : g.ReleasedBefore order a b := by
  obtain ⟨later, hlater, hsorted⟩ := h.in_turn
  obtain ⟨middle, -, rfl⟩ := exists_middle (hlater.symm.trans hsplit) hroots
  exact (List.pairwise_cons.1 (List.pairwise_append.1 hsorted).2.1).1 b hb

theorem Canonical.getElem?_of_lt {order : List Nat} {k : Nat} (h : g.Canonical order)
    (hk : k < g.roots.length) : order[k]? = g.roots[k]? := by
  obtain ⟨later, rfl, -⟩ := h.in_turn
  exact List.getElem?_append_left hk

/-- A canonical order has no choice: if it has begun like the order `order`, whose edges go
forward, it goes on like it. -/
theorem Canonical.next_eq {order order' before after after' : List Nat} {a b : Nat}
    (h : g.Canonical order) (ho : g.IsOrder order) (h' : g.Canonical order')
    (hs : order = before ++ a :: after) (hs' : order' = before ++ b :: after') : a = b := by
  by_cases hroots : before.length < g.roots.length
  · have ha : order[before.length]? = some a := by simp [hs]
    have hb : order'[before.length]? = some b := by simp [hs']
    rw [h.getElem?_of_lt hroots] at ha
    rw [h'.getElem?_of_lt hroots, ha] at hb
    exact Option.some.inj hb
  · by_contra hab
    have hroots := Nat.le_of_not_lt hroots
    have hnd := hs ▸ h.nodup
    have hnd' := hs' ▸ h'.nodup
    have ha : a ∈ after' := by
      have hmem : a ∈ order' := (h'.mem_iff a).2 ((h.mem_iff a).1 (by simp [hs]))
      have hout : a ∉ before := notMem_before hnd
      simpa [hs', hout, hab] using hmem
    have hb : b ∈ after := by
      have hmem : b ∈ order := (h.mem_iff b).2 ((h'.mem_iff b).1 (by simp [hs']))
      have hout : b ∉ before := notMem_before hnd'
      simpa [hs, hout, Ne.symm hab] using hmem
    have hdrivers : g.DriversIn before a := fun i hi => ho.mem_before hs hi
    have hfirst := h.releasedBefore hs hroots hb
    obtain ⟨q, f, p, e, hbq, hap, hlt⟩ := h'.releasedBefore hs' hroots ha
    -- the other order releases `b` no later than `a`, so within the common beginning
    rw [hs'] at hbq hap
    have hap' := (releasedAt_append_iff hnd' hdrivers).1 hap
    have hp := hap'.lt_length
    have hdrivers' : g.DriversIn before b :=
      hbq.driversIn (fun i hi => hs' ▸ (h'.mem_iff i).2 hi) (by omega)
    refine hfirst.asymm ⟨q, f, p, e, ?_, ?_, hlt⟩
    · rw [hs]
      exact (releasedAt_congr hnd' hnd hdrivers').1 hbq
    · rw [hs]
      exact (releasedAt_append_iff hnd hdrivers).2 hap'

theorem canonical_iff {order order' : List Nat} (h : g.evaluationOrder = .ok order) :
    g.Canonical order' ↔ order' = order := by
  have hcanonical := canonical_of_evaluationOrder h
  constructor
  · intro h'
    refine (eq_of_same_next ?_ fun before a after b after' hs hs' => ?_).symm
    · rw [hcanonical.perm.length_eq, h'.perm.length_eq]
    · exact hcanonical.next_eq (isOrder_of_evaluationOrder h) h' hs hs'
  · rintro rfl
    exact hcanonical

/-! ## Depth -/

/-- A path of this many edges ends at the node. -/
inductive PathTo (g : Graph) : Nat → Nat → Prop
  | start (j : Nat) : PathTo g 0 j
  | step {k i j : Nat} : PathTo g k i → g.Feeds i j → PathTo g (k + 1) j

/-- The longest path to the node has this many edges. -/
def Depth (g : Graph) (j d : Nat) : Prop := IsGreatest {k | g.PathTo k j} d

theorem PathTo.le_idxOf {order : List Nat} (ho : g.IsOrder order) {k j : Nat}
    (h : g.PathTo k j) : k ≤ order.idxOf j := by
  induction h with
  | start => exact Nat.zero_le _
  | step _ hf ih => exact Nat.lt_of_le_of_lt ih (ho.idxOf_lt hf)

theorem exists_depth {order : List Nat} (ho : g.IsOrder order) (j : Nat) : ∃ d, g.Depth j d := by
  have hne : {k | g.PathTo k j}.Nonempty := ⟨0, .start j⟩
  have hbdd : BddAbove {k | g.PathTo k j} := ⟨order.idxOf j, fun _ hk => hk.le_idxOf ho⟩
  exact ⟨_, Nat.sSup_mem hne hbdd, fun _ hk => le_csSup hbdd hk⟩

theorem not_mem_roots_of_feeds {i j : Nat} (h : g.Feeds i j) : j ∉ g.roots := by
  obtain ⟨l, hl, -, ht⟩ := h
  intro hj
  have hzero : g.inDegree j = 0 := of_decide_eq_true (List.mem_filter.1 hj).2
  have hmem : l ∈ g.linksInto j := List.mem_filter.2 ⟨hl, decide_eq_true ht⟩
  rw [inDegree, List.length_eq_zero_iff] at hzero
  rw [hzero] at hmem
  cases hmem

namespace InTurn

variable {order : List Nat} {i j : Nat}

theorem exists_releasedAt (h : g.InTurn order []) (hj : j ∈ order) (hroot : j ∉ g.roots) :
    ∃ p e, g.ReleasedAt order j p e := by
  obtain ⟨later, hsplit, -, hreleased⟩ := h
  rw [List.append_nil] at hsplit
  rw [hsplit, List.mem_append] at hj
  exact hreleased j (hj.resolve_left hroot)

theorem not_mem_roots (h : g.InTurn order []) (hi : i ∉ g.roots)
    (hle : order.idxOf i ≤ order.idxOf j) : j ∉ g.roots := by
  obtain ⟨later, hsplit, -⟩ := h
  intro hj
  have hlt := List.idxOf_lt_length_of_mem hj
  rw [List.append_nil] at hsplit
  rw [hsplit, List.idxOf_append_of_notMem hi, List.idxOf_append_of_mem hj] at hle
  omega

/-- Of two nodes with drivers, the one that stands later is released no earlier. -/
theorem released_le (h : g.InTurn order []) {p e q f : Nat} (hi : i ∉ g.roots) (hj : j ∈ order)
    (hle : order.idxOf i ≤ order.idxOf j) (hip : g.ReleasedAt order i p e)
    (hjq : g.ReleasedAt order j q f) : p ≤ q := by
  have hjroot := h.not_mem_roots hi hle
  obtain ⟨later, hsplit, hsorted, -⟩ := h
  rw [List.append_nil] at hsplit
  have hlater : j ∈ later := by
    rw [hsplit, List.mem_append] at hj
    exact hj.resolve_left hjroot
  rcases Nat.lt_or_eq_of_le hle with hlt | heq
  · have hlt' : later.idxOf i < later.idxOf j := by
      rw [hsplit, List.idxOf_append_of_notMem hi, List.idxOf_append_of_notMem hjroot] at hlt
      omega
    obtain ⟨p', e', q', f', hip', hjq', hbefore⟩ := rel_of_idxOf_lt hsorted hlater hlt'
    obtain ⟨rfl, rfl⟩ := hip.unique hip'
    obtain ⟨rfl, rfl⟩ := hjq.unique hjq'
    omega
  · obtain rfl : j = i := (List.idxOf_inj hj).1 heq.symm
    exact Nat.le_of_eq (hip.unique hjq).1

/-- A node that stands no earlier than another has a driver that stands no earlier than any
driver of the other. -/
theorem exists_driver (h : g.InTurn order []) (ho : g.IsOrder order) {x : Nat} (hx : g.Feeds x i)
    (hj : j ∈ order) (hle : order.idxOf i ≤ order.idxOf j) :
    ∃ y ∈ order, g.Feeds y j ∧ order.idxOf x ≤ order.idxOf y := by
  have hi : i ∈ order := (ho.mem_iff i).2 (target_lt_of_feeds hx)
  have hiroot : i ∉ g.roots := not_mem_roots_of_feeds hx
  obtain ⟨p, e, hip⟩ := h.exists_releasedAt hi hiroot
  obtain ⟨q, f, hjq⟩ := h.exists_releasedAt hj (h.not_mem_roots hiroot hle)
  have hxp : order.idxOf x ≤ p := by
    obtain ⟨l, hl, rfl, ht⟩ := hx
    obtain ⟨e', he'⟩ := List.mem_iff_getElem?.1 hl
    have hmem : l.source ∈ order := (ho.mem_iff _).2 (link_ends_lt hl).1
    exact hip.last_driver _ e' ⟨l, he', ht, List.getElem?_idxOf hmem⟩
  have hpq := h.released_le hiroot hj hle hip hjq
  obtain ⟨l, hl, ht, hs⟩ := hjq.edge
  obtain ⟨hq, hs⟩ := List.getElem?_eq_some_iff.1 hs
  refine ⟨l.source, hs ▸ List.getElem_mem hq, ⟨l, List.mem_of_getElem? hl, rfl, ht⟩, ?_⟩
  rw [← hs, ho.nodup.idxOf_getElem]
  omega

/-- A path to a node has one of the same length beside it, to any node that stands no earlier. -/
theorem pathTo_of_idxOf_le (h : g.InTurn order []) (ho : g.IsOrder order) {k : Nat}
    (hp : g.PathTo k i) (hj : j ∈ order) (hle : order.idxOf i ≤ order.idxOf j) : g.PathTo k j := by
  induction hp generalizing j with
  | start => exact .start j
  | step _ hf ih =>
    obtain ⟨y, hy, hyj, hxy⟩ := h.exists_driver ho hf hj hle
    exact .step (ih hy hxy) hyj

end InTurn

end Graph

/-! ## The order of evaluation -/

/-- The order of evaluation is the only canonical one: it has each node once, first those
without drivers, in node order, and then the others, in the order of the pairs of their last
driver and their last edge from it. So a node stands before all nodes that are deeper in the
graph. -/
theorem evaluationOrder_canonical {g : Graph} {order : List Nat}
    (h : g.evaluationOrder = .ok order) :
    (∀ order', g.Canonical order' ↔ order' = order) ∧
    (∀ j ∈ order, j ∉ g.roots → ∃ p e, g.ReleasedAt order j p e ∧
      ∀ q f, g.ReleasedAt order j q f → q = p ∧ f = e) ∧
    (∀ j, ∃ d, g.Depth j d) ∧
    ∀ i ∈ order, ∀ j ∈ order, ∀ d d', g.Depth i d → g.Depth j d' → d < d' →
      order.idxOf i < order.idxOf j := by
  have ho := Graph.isOrder_of_evaluationOrder h
  have hturn := Graph.inTurn_of_evaluationOrder h
  refine ⟨fun order' => Graph.canonical_iff h, fun j hj hroot => ?_, Graph.exists_depth ho, ?_⟩
  · obtain ⟨p, e, hjp⟩ := hturn.exists_releasedAt hj hroot
    exact ⟨p, e, hjp, fun q f hjq => hjq.unique hjp⟩
  · intro i hi j hj d d' hd hd' hlt
    by_contra hle
    -- else the longest path to `j` would have one as long beside it, to `i`
    have hpath := hturn.pathTo_of_idxOf_le ho hd'.1 hi (Nat.le_of_not_lt hle)
    exact absurd (hd.2 hpath) (Nat.not_le.2 hlt)

/-- The input drives the gate before and after the inverter: the inverter comes first. -/
def tieBroken : Graph where
  nodes := [{ id := "o", kind := .output (some 8) }, { id := "x", kind := .gate .and 3 },
    { id := "n", kind := .not }, { id := "a", kind := .input (some 2) }]
  edges := [{ source := "a", target := "x", targetHandle := "in0" }, { source := "a", target := "n" },
    { source := "a", target := "x", targetHandle := "in1" }, { source := "x", target := "o" }]
  ids_nodup := by decide
  ends_known := by decide

theorem tieBroken_canonical :
    tieBroken.evaluationOrder = .ok [3, 2, 1, 0] ∧
    (∀ order, tieBroken.Canonical order ↔ order = [3, 2, 1, 0]) ∧
    (∃ p e, tieBroken.ReleasedAt [3, 2, 1, 0] 1 p e ∧
      ∀ q f, tieBroken.ReleasedAt [3, 2, 1, 0] 1 q f → q = p ∧ f = e) ∧
    tieBroken.Depth 3 0 ∧ tieBroken.Depth 2 1 ∧ [3, 2, 1, 0].idxOf 3 < [3, 2, 1, 0].idxOf 2 := by
  have ho : tieBroken.evaluationOrder = .ok [3, 2, 1, 0] := by cbv
  have horder := Graph.isOrder_of_evaluationOrder ho
  have hinput : tieBroken.Depth 3 0 :=
    ⟨Graph.PathTo.start 3, fun _ hk => hk.le_idxOf horder⟩
  have hwire : tieBroken.Feeds 3 2 := ⟨⟨3, 2, "in"⟩, by decide, rfl, rfl⟩
  have hinverter : tieBroken.Depth 2 1 :=
    ⟨Graph.PathTo.step (.start 3) hwire, fun _ hk => hk.le_idxOf horder⟩
  obtain ⟨honly, hreleased, -, hdepth⟩ := evaluationOrder_canonical ho
  exact ⟨ho, honly, hreleased 1 (by decide) (by decide), hinput, hinverter,
    hdepth 3 (by decide) 2 (by decide) 0 1 hinput hinverter (by decide)⟩

end LogicWiring
