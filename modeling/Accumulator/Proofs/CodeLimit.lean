/-
  Accumulator/Proofs/CodeLimit.lean
  =================================
  **Who keeps to the code limit.**

  The count in front of the code of an image is a word, so an image tells the length of
  the code only for programs that keep to the limit (`codeCount_toImage`).  Images are
  written without a check, in the trust that there is no other program.

  `Obtained` lists the ways to come by a program.  All of them check the limit but one: a
  stored record of a program is taken as it is.  So the limit holds of all programs if
  and only if it holds of the records that are taken (`limit_kept_iff`), and a record with
  one instruction too many gives an image that counts none.
-/
import Accumulator.Proofs.RoundTrip

namespace Accumulator

/-- The number of instructions that an image announces behind magic and version. -/
def Image.codeCount (bytes : List UInt8) : Nat := Word.ofBytes ((bytes.drop 5).take 2)

namespace Program

/-- The programs that can be come by, where a record may be taken if `accepts` holds of its
code. -/
inductive Obtained (accepts : Array Instr → Prop) : Program → Prop
  | empty : Obtained accepts .empty
  | ofSegments {code : Array Instr} {data : DataSegment} {labels : LabelTable} {p : Program}
      (h : ofSegments code data labels = .ok p) : Obtained accepts p
  | assemble {source : String} {p : Program} (h : assemble source = .ok p) : Obtained accepts p
  | ofImage {bytes : List UInt8} {p : Program} (h : ofImage bytes = .ok p) : Obtained accepts p
  | ofRecord {code : Array Instr} (data : Array UInt8) (labels : LabelTable)
      (h : accepts code) : Obtained accepts (ofRecord code data labels)
  | addInstr {p q : Program} {i : Instr} {pos : Pos} (hp : Obtained accepts p)
      (h : p.addInstr i = .ok (pos, q)) : Obtained accepts q
  | addData {p q : Program} {literal : List UInt8} {ref : DataRef} (hp : Obtained accepts p)
      (h : p.addData literal = .ok (ref, q)) : Obtained accepts q
  | addLabel {p q : Program} {name : String} {label : Label} (hp : Obtained accepts p)
      (h : p.addLabel name label = .ok q) : Obtained accepts q

/-! ### Adding to a program -/

section

variable {p q : Program}

theorem code_of_addInstr {i : Instr} {pos : Pos} (h : p.addInstr i = .ok (pos, q)) :
    q.code.size ≤ codeSegmentMax := by
  obtain ⟨_, -, h⟩ := Outcome.bind_eq_ok_iff.mp h
  split at h
  · rename_i hfit
    cases h
    simpa using hfit
  · cases h

theorem code_of_addData {literal : List UInt8} {ref : DataRef}
    (h : p.addData literal = .ok (ref, q)) : q.code = p.code := by
  obtain ⟨_, -, h⟩ := Outcome.bind_eq_ok_iff.mp h
  cases h
  rfl

theorem code_of_addLabel {name : String} {label : Label} (h : p.addLabel name label = .ok q) :
    q.code = p.code := by
  obtain ⟨_, -, h⟩ := Outcome.bind_eq_ok_iff.mp h
  cases h
  rfl

end

/-! ### The limit -/

/-- All ways but one check the limit or keep it. -/
theorem Obtained.code_le {accepts : Array Instr → Prop} {p : Program}
    (hrecords : ∀ code, accepts code → code.size ≤ codeSegmentMax) (h : Obtained accepts p) :
    p.code.size ≤ codeSegmentMax := by
  induction h with
  | empty => simp [Program.empty]
  | ofSegments h =>
    obtain ⟨hcode, rfl⟩ := ofSegments_eq_ok_iff.mp h
    exact hcode
  | assemble h => exact (storable_of_assemble h).code_le
  | ofImage h => exact (ofImage_eq_ok_iff.mp h).1.code_le
  | ofRecord data labels h => exact hrecords _ h
  | addInstr _ h => exact code_of_addInstr h
  | addData _ h ih => rwa [code_of_addData h]
  | addLabel _ h ih => rwa [code_of_addLabel h]

theorem codeCount_toImage (p : Program) :
    Image.codeCount p.toImage = p.code.size % 65536 := by
  have hbody : (p.toImage.drop 5).take 2 = Word.toBytes 2 p.code.size := by
    simp [toImage, Image.magic, Word.toBytes]
  simp only [Image.codeCount, hbody, Word.toBytes, Word.ofBytes_cons, Word.ofBytes_nil,
    UInt8.toNat_ofNat']
  omega

theorem codeCount_toImage_eq_iff {p : Program} :
    Image.codeCount p.toImage = p.code.size ↔ p.code.size ≤ codeSegmentMax := by
  rw [codeCount_toImage, codeSegmentMax]
  omega

/-- **Records decide on the limit.**  Every program that can be come by keeps to the code
limit, and its image announces as many instructions as it has, if and only if every record
that is taken keeps to the limit. -/
theorem limit_kept_iff (accepts : Array Instr → Prop) :
    (∀ p, Obtained accepts p →
      p.code.size ≤ codeSegmentMax ∧ Image.codeCount p.toImage = p.code.size) ↔
      ∀ code, accepts code → code.size ≤ codeSegmentMax := by
  constructor
  · intro hall code hcode
    exact (hall _ (.ofRecord #[] {} hcode)).1
  · intro hrecords p hp
    have hfit := hp.code_le hrecords
    exact ⟨hfit, codeCount_toImage_eq_iff.mpr hfit⟩

/-- A record with one instruction too many is taken.  Its image announces none and does not
load as the program. -/
theorem limit_exceeded_by_record :
    ∃ p, Obtained (fun _ => True) p ∧ p.code.size = codeSegmentMax + 1 ∧
      Image.codeCount p.toImage = 0 ∧ ∀ q, ofImage p.toImage = .ok q → q.code ≠ p.code := by
  have hsize : (ofRecord (Array.replicate 65536 .nop) #[] {}).code.size = 65536 := by
    simp [ofRecord]
  refine ⟨_, .ofRecord #[] {} trivial, hsize, ?_, ?_⟩
  · rw [codeCount_toImage, hsize]
  · intro q hq hcode
    have hfit := (ofImage_eq_ok_iff.mp hq).1.code_le
    rw [hcode, hsize] at hfit
    exact absurd hfit (by decide)

end Program

end Accumulator
