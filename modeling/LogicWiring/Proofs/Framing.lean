-- Packets and their payload. What is read out of a packet is what was framed,
-- and the envelope of any other bytes is found at fault, from its size to its
-- sum. So no single wrong byte, no loss of bytes at the end and no bytes too
-- many go unnoticed. Main statements: `unframe_exact` and `damage_noticed`.
import LogicWiring.Frame
import Mathlib

namespace LogicWiring

/-! ## The sum -/

theorem toNat_foldl_add (bytes : List UInt8) (start : UInt8) :
    (bytes.foldl (· + ·) start).toNat = (start.toNat + (bytes.map UInt8.toNat).sum) % 256 := by
  induction bytes generalizing start with
  | nil =>
    have := start.toNat_lt
    simp only [List.foldl_nil, List.map_nil, List.sum_nil]
    omega
  | cons b rest ih =>
    rw [List.foldl_cons, ih, UInt8.toNat_add, List.map_cons, List.sum_cons]
    omega

theorem checksum_eq (bytes : List UInt8) :
    checksum bytes = UInt8.ofNat ((bytes.map UInt8.toNat).sum % 256) := by
  apply UInt8.toNat_inj.1
  rw [checksum, toNat_foldl_add, UInt8.toNat_ofNat_of_lt' (Nat.mod_lt _ (by decide))]
  simp

/-! ## The envelope -/

/-- Two bytes in front of the payload and one behind it. -/
def envelope (start declared : UInt8) (payload : List UInt8) (sum : UInt8) : List UInt8 :=
  start :: declared :: (payload ++ [sum])

theorem length_envelope (start declared : UInt8) (payload : List UInt8) (sum : UInt8) :
    (envelope start declared payload sum).length = payload.length + 3 := by
  simp [envelope]

theorem exists_envelope {bytes : List UInt8} (h : 3 ≤ bytes.length) :
    ∃ start declared payload sum, bytes = envelope start declared payload sum := by
  match bytes with
  | start :: declared :: b :: rest =>
    refine ⟨start, declared, (b :: rest).dropLast, (b :: rest).getLast (by simp), ?_⟩
    rw [envelope, List.dropLast_concat_getLast]

/-- The checks of an envelope, from its start to its sum. -/
theorem unframe_envelope (start declared : UInt8) (payload : List UInt8) (sum : UInt8) :
    unframe (envelope start declared payload sum) =
      if start ≠ frameStart then .error (.badStart start)
      else if payload.length ≠ declared.toNat then
        .error (.lengthMismatch declared.toNat payload.length)
      else if sum ≠ checksum payload then .error (.checksum (checksum payload) sum)
      else .ok payload := by
  unfold envelope
  cases h : payload ++ [sum] with
  | nil => simp at h
  | cons b rest =>
    have hlast : (b :: rest).getLast (List.cons_ne_nil b rest) = sum := by simp [← h]
    have hpayload : (b :: rest).dropLast = payload := by simp [← h]
    simp only [unframe, hlast, hpayload]

theorem unframe_short {bytes : List UInt8} (h : bytes.length < 3) :
    unframe bytes = .error (.truncated bytes.length) := by
  unfold unframe
  split
  · simp only [List.length_cons] at h
    omega
  · rfl

theorem frame_eq_ok_iff {payload bytes : List UInt8} : frame payload = .ok bytes ↔
    payload.length ≤ 255 ∧
      bytes = envelope frameStart (UInt8.ofNat payload.length) payload (checksum payload) := by
  unfold frame maxFramePayload
  by_cases h : payload.length > 255
  · simp [h, Nat.not_le.2 h]
  · rw [if_neg h, Except.ok.injEq]
    simp only [Nat.not_lt.1 h, true_and]
    exact eq_comm

theorem unframe_eq_ok_iff {bytes payload : List UInt8} :
    unframe bytes = .ok payload ↔ frame payload = .ok bytes := by
  rw [frame_eq_ok_iff]
  constructor
  · intro h
    by_cases hshort : bytes.length < 3
    · rw [unframe_short hshort] at h
      cases h
    · obtain ⟨start, declared, p, sum, rfl⟩ := exists_envelope (Nat.not_lt.1 hshort)
      rw [unframe_envelope] at h
      split at h
      · cases h
      · split at h
        · cases h
        · split at h
          · cases h
          · rename_i hstart hlength hsum
            cases h
            rw [Decidable.not_not] at hstart hlength hsum
            have := declared.toNat_lt
            refine ⟨by omega, ?_⟩
            rw [hstart, hlength, hsum, UInt8.ofNat_toNat]
  · rintro ⟨hlength, rfl⟩
    rw [unframe_envelope, UInt8.toNat_ofNat_of_lt' (Nat.lt_succ_of_le hlength)]
    simp

/-! ## Bytes that are no frame -/

/-- What is wrong first: the bytes do not fill an envelope, do not start like one, declare another
length than they have within it, or do not end in the sum of their payload modulo 256. -/
def frameFault (bytes : List UInt8) : FrameError :=
  let start := bytes.getD 0 0
  let declared := (bytes.getD 1 0).toNat
  let payload := (bytes.drop 2).dropLast
  if bytes.length < 3 then .truncated bytes.length
  else if start ≠ 0x7E then .badStart start
  else if declared ≠ bytes.length - 3 then .lengthMismatch declared (bytes.length - 3)
  else .checksum (UInt8.ofNat ((payload.map UInt8.toNat).sum % 256)) (bytes.getLastD 0)

theorem frameFault_envelope (start declared : UInt8) (payload : List UInt8) (sum : UInt8) :
    frameFault (envelope start declared payload sum) =
      if start ≠ frameStart then .badStart start
      else if payload.length ≠ declared.toNat then
        .lengthMismatch declared.toNat payload.length
      else .checksum (checksum payload) sum := by
  have hstart : (envelope start declared payload sum).getD 0 0 = start := rfl
  have hdeclared : (envelope start declared payload sum).getD 1 0 = declared := rfl
  have hpayload : ((envelope start declared payload sum).drop 2).dropLast = payload := by
    simp [envelope]
  have hsum : (envelope start declared payload sum).getLastD 0 = sum := by
    rw [envelope, ← List.cons_append, ← List.cons_append, List.getLastD_concat]
  simp only [frameFault, hstart, hdeclared, hpayload, hsum, ← checksum_eq, length_envelope]
  rw [if_neg (by omega), Nat.add_sub_cancel]
  simp only [ne_comm (a := declared.toNat)]
  rfl

/-- Bytes that cannot be read have the fault that is reported. -/
theorem unframe_of_ne_ok {bytes : List UInt8} (h : ∀ payload, unframe bytes ≠ .ok payload) :
    unframe bytes = .error (frameFault bytes) := by
  by_cases hshort : bytes.length < 3
  · rw [unframe_short hshort, frameFault, if_pos hshort]
  · obtain ⟨start, declared, payload, sum, rfl⟩ := exists_envelope (Nat.not_lt.1 hshort)
    have hok := h payload
    rw [unframe_envelope] at hok ⊢
    rw [frameFault_envelope]
    by_cases hstart : start ≠ frameStart
    · rw [if_pos hstart, if_pos hstart]
    · rw [if_neg hstart] at hok ⊢
      rw [if_neg hstart]
      by_cases hlength : payload.length ≠ declared.toNat
      · rw [if_pos hlength, if_pos hlength]
      · rw [if_neg hlength] at hok ⊢
        rw [if_neg hlength]
        by_cases hsum : sum ≠ checksum payload
        · rw [if_pos hsum]
        · rw [if_neg hsum] at hok
          exact absurd rfl hok

/-! ## Frames are exact -/

/-- A payload is read out of the frame that was made of it and of no other bytes. Every payload of
at most 255 bytes has a frame. Bytes that are no frame are refused for the first thing that is
wrong with them. -/
theorem unframe_exact (bytes payload : List UInt8) :
    (unframe bytes = .ok payload ↔ frame payload = .ok bytes) ∧
    ((∃ e, frame payload = .error e) ↔ 255 < payload.length) ∧
    ((¬ ∃ p, frame p = .ok bytes) → unframe bytes = .error (frameFault bytes)) := by
  refine ⟨unframe_eq_ok_iff, ?_, ?_⟩
  · unfold frame maxFramePayload
    split <;> simp_all
  · intro h
    apply unframe_of_ne_ok
    intro p hp
    exact h ⟨p, unframe_eq_ok_iff.1 hp⟩

/-- Two bytes of payload under a sum that is one too large. -/
theorem wrongSum_exact :
    (¬ ∃ p, frame p = .ok [0x7E, 2, 200, 100, 45]) ∧
      unframe [0x7E, 2, 200, 100, 45] = .error (.checksum 44 45) := by
  have hno : ¬ ∃ p, frame p = .ok [0x7E, 2, 200, 100, 45] := by
    rintro ⟨p, hp⟩
    have hread := (unframe_exact [0x7E, 2, 200, 100, 45] p).1.2 hp
    cases hread
  exact ⟨hno, (unframe_exact [0x7E, 2, 200, 100, 45] []).2.2 hno⟩

/-! ## Damaged frames -/

/-- The same bytes but for one, which is another. -/
def OneByteOff (bytes other : List UInt8) : Prop :=
  ∃ before b b' after, b ≠ b' ∧ bytes = before ++ b :: after ∧ other = before ++ b' :: after

/-- The difference of two bytes is less than 256, so it shows in the sum. -/
theorem checksum_ne {b b' : UInt8} (h : b ≠ b') (before after : List UInt8) :
    checksum (before ++ b :: after) ≠ checksum (before ++ b' :: after) := by
  intro heq
  have hsum := congrArg UInt8.toNat heq
  unfold checksum at hsum
  rw [toNat_foldl_add, toNat_foldl_add] at hsum
  simp only [List.map_append, List.map_cons, List.sum_append, List.sum_cons] at hsum
  have hne : b.toNat ≠ b'.toNat := fun he => h (UInt8.toNat_inj.1 he)
  have := b.toNat_lt
  have := b'.toNat_lt
  omega

/-- Two frames differ in two bytes at least. -/
theorem not_oneByteOff {payload payload' bytes bytes' : List UInt8}
    (h : frame payload = .ok bytes) (h' : frame payload' = .ok bytes') :
    ¬ OneByteOff bytes bytes' := by
  intro ⟨before, b, b', after, hne, hbytes, hbytes'⟩
  rw [(frame_eq_ok_iff.1 h).2, envelope] at hbytes
  rw [(frame_eq_ok_iff.1 h').2, envelope] at hbytes'
  have hlength : payload.length = payload'.length := by
    have hl := congrArg List.length hbytes
    have hl' := congrArg List.length hbytes'
    simp only [List.length_append, List.length_cons] at hl hl'
    omega
  -- Neither of the first two bytes is off: both frames start alike and declare the same length.
  match before with
  | [] => simp_all
  | [_] => simp_all
  | _ :: _ :: before =>
    simp only [List.cons_append, List.cons.injEq] at hbytes hbytes'
    have hrest := hbytes.2.2
    have hrest' := hbytes'.2.2
    rcases List.eq_nil_or_concat after with rfl | ⟨init, last, rfl⟩
    · obtain ⟨rfl, hsum⟩ := List.append_inj' hrest rfl
      obtain ⟨rfl, hsum'⟩ := List.append_inj' hrest' rfl
      simp_all
    · rw [List.concat_eq_append, ← List.cons_append, ← List.append_assoc] at hrest hrest'
      obtain ⟨rfl, hsum⟩ := List.append_inj' hrest rfl
      obtain ⟨rfl, hsum'⟩ := List.append_inj' hrest' rfl
      apply checksum_ne hne before init
      rw [(List.cons.inj hsum).1, (List.cons.inj hsum').1]

/-- Bytes that start as a frame are refused for their length before their sum is looked at. -/
theorem unframe_of_length_ne {declared : UInt8} {rest : List UInt8} (hrest : rest ≠ [])
    (hlength : rest.length - 1 ≠ declared.toNat) :
    unframe (frameStart :: declared :: rest) =
      .error (.lengthMismatch declared.toNat (rest.length - 1)) := by
  have henvelope : frameStart :: declared :: rest =
      envelope frameStart declared rest.dropLast (rest.getLast hrest) := by
    rw [envelope, List.dropLast_concat_getLast]
  rw [henvelope, unframe_envelope, List.length_dropLast]
  simp [hlength]

/-- A frame in which one byte is off is refused. A frame that is cut off is refused for its length,
and so is one that more bytes follow. -/
theorem damage_noticed (payload bytes : List UInt8) (h : frame payload = .ok bytes) :
    (∀ other, OneByteOff bytes other → unframe other = .error (frameFault other)) ∧
    (∀ other, other <+: bytes → other ≠ bytes → unframe other = .error
      (if other.length < 3 then .truncated other.length
      else .lengthMismatch payload.length (other.length - 3))) ∧
    ∀ more, more ≠ [] → unframe (bytes ++ more) =
      .error (.lengthMismatch payload.length (payload.length + more.length)) := by
  obtain ⟨hsize, hbytes⟩ := frame_eq_ok_iff.1 h
  have hdeclared : (UInt8.ofNat payload.length).toNat = payload.length :=
    UInt8.toNat_ofNat_of_lt' (Nat.lt_succ_of_le hsize)
  refine ⟨?_, ?_, ?_⟩
  · intro other hoff
    apply unframe_of_ne_ok
    intro payload' hread
    exact not_oneByteOff h (unframe_eq_ok_iff.1 hread) hoff
  · intro other hbefore hne
    by_cases hshort : other.length < 3
    · rw [if_pos hshort]
      exact unframe_short hshort
    · rw [if_neg hshort]
      have hlt : other.length < bytes.length :=
        Nat.lt_of_le_of_ne hbefore.length_le fun he => hne (hbefore.eq_of_length he)
      obtain ⟨start, declared, cut, sum, rfl⟩ := exists_envelope (Nat.not_lt.1 hshort)
      rw [hbytes, length_envelope, length_envelope] at hlt
      rw [hbytes, envelope, envelope, List.cons_prefix_cons, List.cons_prefix_cons] at hbefore
      obtain ⟨rfl, rfl, -⟩ := hbefore
      have hcut : (cut ++ [sum]).length - 1 = cut.length := by simp
      rw [length_envelope, envelope,
        unframe_of_length_ne (by simp) (by rw [hcut, hdeclared]; omega), hcut, hdeclared,
        Nat.add_sub_cancel]
  · intro more hmore
    have hpos := List.length_pos_iff.2 hmore
    have hlength : (payload ++ [checksum payload] ++ more).length - 1 =
        payload.length + more.length := by
      simp only [List.length_append, List.length_singleton]
      omega
    rw [hbytes, envelope, List.cons_append, List.cons_append,
      unframe_of_length_ne (by simp) (by rw [hlength, hdeclared]; omega), hlength, hdeclared]

/-- The frame of three bytes with its last byte off, without its sum, and with a byte too many. -/
theorem threeBytes_damaged :
    frame [2, 13, 4] = .ok [0x7E, 3, 2, 13, 4, 19] ∧
    unframe [0x7E, 3, 2, 13, 4, 20] = .error (.checksum 19 20) ∧
    unframe [0x7E, 3, 2, 13, 4] = .error (.lengthMismatch 3 2) ∧
    unframe [0x7E, 3, 2, 13, 4, 19, 0] = .error (.lengthMismatch 3 4) := by
  have hframe : frame [2, 13, 4] = .ok [0x7E, 3, 2, 13, 4, 19] := by decide
  obtain ⟨hoff, hcut, hmore⟩ := damage_noticed [2, 13, 4] [0x7E, 3, 2, 13, 4, 19] hframe
  refine ⟨hframe, ?_, ?_, ?_⟩
  · exact hoff _ ⟨[0x7E, 3, 2, 13, 4], 19, 20, [], by decide, rfl, rfl⟩
  · exact hcut _ ⟨[19], rfl⟩ (by decide)
  · exact hmore [0] (by decide)

end LogicWiring
