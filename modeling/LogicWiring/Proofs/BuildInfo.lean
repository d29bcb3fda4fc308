-- The build information. A digest is written in sixty-four hexadecimal
-- digits, which need no escape in a quoted string, so each line of the text is
-- known. Main statement: `Provenance.text_ofProgram`.
import LogicWiring.CommandLine
import Mathlib.Data.List.Basic
import Mathlib.Data.Nat.Digits.Defs

namespace LogicWiring

/-! ## Digests -/

namespace Sha256

/-- One of the digits of a digest. -/
def IsHexDigit (c : Char) : Prop := ∃ d < 16, c = Nat.digitChar d

theorem isHexDigit_of_mem_toDigits {n : Nat} {c : Char} (h : c ∈ Nat.toDigits 16 n) :
    IsHexDigit c := by
  induction n using Nat.strongRecOn with
  | ind n ih =>
    by_cases hn : n < 16
    · rw [Nat.toDigits_of_lt_base hn, List.mem_singleton] at h
      exact ⟨n, hn, h⟩
    · rw [Nat.toDigits_of_base_le (by decide) (Nat.le_of_not_lt hn), List.mem_append,
        List.mem_singleton] at h
      rcases h with h | rfl
      · exact ih (n / 16) (Nat.div_lt_self (by omega) (by decide)) h
      · exact ⟨n % 16, Nat.mod_lt n (by decide), rfl⟩

theorem isHexDigit_of_mem_wordText {w : UInt32} {c : Char} (h : c ∈ (wordText w).toList) :
    IsHexDigit c := by
  rw [wordText, String.toList_ofList, List.leftpad, List.mem_append] at h
  rcases h with h | h
  · exact ⟨0, by decide, List.eq_of_mem_replicate h⟩
  · exact isHexDigit_of_mem_toDigits h

theorem length_wordText (w : UInt32) : (wordText w).toList.length = 8 := by
  have hlen : (Nat.toDigits 16 w.toNat).length ≤ 8 :=
    Nat.toDigits_length 16 w.toNat 8 (by decide) w.toNat_lt
  rw [wordText, String.toList_ofList, List.length_leftpad]
  omega

theorem toList_hex (message : List UInt8) :
    (hex message).toList = (digest message).flatMap fun w => (wordText w).toList := by
  simp [hex, String.toList_join, List.flatMap_map]

/-- A digest is written in hexadecimal digits. -/
theorem isHexDigit_of_mem_hex {message : List UInt8} {c : Char}
    (h : c ∈ (hex message).toList) : IsHexDigit c := by
  rw [toList_hex] at h
  obtain ⟨w, -, hc⟩ := List.mem_flatMap.1 h
  exact isHexDigit_of_mem_wordText hc

/-- A digest has sixty-four digits, whatever it is the digest of. -/
theorem length_hex (message : List UInt8) : (hex message).length = 64 := by
  rw [← String.length_toList, toList_hex, List.length_flatMap]
  simp [length_wordText, digest, State.words]

example : hex [123, 125] = "44136fa355b3678a1146ad16f7e8649e94fb4fc21fe77e8310c060f61caaff8a" := by
  decide +kernel

end Sha256

/-! ## Quoted strings -/

theorem Sha256.IsHexDigit.escapeChar {c : Char} (h : IsHexDigit c) : Json.escapeChar c = [c] := by
  obtain ⟨d, hd, rfl⟩ := h
  decide +revert

/-- A text of plain characters stands as it is between the quotes. -/
theorem Json.quoted_of_plain {s : String} (h : ∀ c ∈ s.toList, Json.escapeChar c = [c]) :
    Json.quoted s = "\"" ++ s ++ "\"" := by
  have hchars : s.toList.flatMap Json.escapeChar = s.toList := by
    rw [List.flatMap_congr h, List.flatMap_singleton']
  apply String.toList_injective
  simp [Json.quoted, hchars]

theorem Json.quoted_hex (message : List UInt8) :
    Json.quoted (Sha256.hex message) = "\"" ++ Sha256.hex message ++ "\"" :=
  Json.quoted_of_plain fun _ hc => (Sha256.isHexDigit_of_mem_hex hc).escapeChar

/-! ## The text -/

/-- The lines of the build information, for the text of a project and its program. -/
def buildInfoLines (project : String) (p : Program) : List String := [
  "\x7b",
  "  \"project_hash\": \"" ++ Sha256.hex project.toByteArray.toList ++ "\",",
  "  \"program_hash\": \"" ++ Sha256.hex p.bytes ++ "\",",
  "  \"program_len\": " ++ p.bytes.length.repr ++ ",",
  "  \"slot_count\": " ++ p.slotCount.repr ++ ",",
  "  \"compiler_version\": \"0.3.1\"",
  "\x7d"]

theorem Provenance.text_ofProgram (project : String) (p : Program) :
    (Provenance.ofProgram project p).text = linesOf (buildInfoLines project p) := by
  have hnames : ∀ s ∈ ["project_hash", "program_hash", "program_len", "slot_count",
      "compiler_version", "0.3.1"], Json.quoted s = "\"" ++ s ++ "\"" := by decide
  simp only [List.forall_mem_cons] at hnames
  apply String.toList_injective
  simp [text, ofProgram, compilerVersion, Json.Value.renderLines, Json.Value.render,
    Json.quoted_hex, hnames, linesOf, buildInfoLines]

end LogicWiring
