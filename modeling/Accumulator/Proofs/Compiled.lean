/-
  Accumulator/Proofs/Compiled.lean
  ================================
  **A compiled program runs as its text.**

  A program can be run from its text or from an image of it.  Whether a file is an image
  is seen in its first bytes, which are letters, so three things have to fit together:

    * a text that is assembled never starts with these letters (`not_magic_of_assemble`),
      since the first line would be an operation with a mnemonic that there is not;
    * its bytes are read back as the text, and the image as the program without labels;
    * a machine never looks at labels.  Exchanging the program for one with the same code
      commutes with a step (`step_withProgram`) and so with a run of any length.

  What is left of the labels is the note on the place of a fault.
-/
import Accumulator.Command.Session
import Accumulator.Proofs.Line
import Accumulator.Proofs.RoundTrip
import Accumulator.Proofs.Run
import Accumulator.Proofs.Utf8

namespace Accumulator

/-! ### Texts are no images -/

/-- The mnemonics start with small letters. -/
theorem Form.ofMnemonic?_of_capital {mnemonic : String} (h : mnemonic.toList.head? = some 'A') :
    ofMnemonic? mnemonic = none := by
  revert h
  unfold ofMnemonic?
  split <;> simp

namespace Text

theorem pieces_cons_of_not_cut {isCut : Char → Bool} {c : Char} (hc : isCut c = false)
    (cs : List Char) :
    ∃ piece rest, pieces isCut (c :: cs) = (c :: piece) :: rest := by
  obtain ⟨piece, rest, h⟩ := List.exists_cons_of_ne_nil (pieces_ne_nil isCut cs)
  refine ⟨piece, rest, ?_⟩
  have hcons : pieces isCut (c :: cs) = cut isCut c (pieces isCut cs) := rfl
  simp [hcons, h, cut, hc]

theorem dropFinal_cons {c d : Char} (h : d ≠ c) (cs : List Char) :
    ∃ cs', dropFinal c (d :: cs) = d :: cs' := by
  unfold dropFinal
  split
  · cases cs with
    | nil => simp_all
    | cons e cs => exact ⟨_, List.dropLast_cons_cons⟩
  · exact ⟨cs, rfl⟩

/-- The first line of a text starts as the text does. -/
theorem lines_cons {c : Char} (hfeed : c ≠ '\n') (hreturn : c ≠ '\r') (cs : List Char) :
    ∃ line rest, lines (c :: cs) = (c :: line) :: rest := by
  obtain ⟨piece, rest, h⟩ :=
    @pieces_cons_of_not_cut (· == '\n') c (beq_eq_false_iff_ne.mpr hfeed) cs
  unfold lines
  rw [h]
  cases rest with
  | nil => exact ⟨piece, [], rfl⟩
  | cons next rest =>
    obtain ⟨line, hline⟩ := dropFinal_cons hreturn piece
    simp only [List.dropLast_cons_cons, List.map_cons, hline]
    split <;> exact ⟨line, _, rfl⟩

end Text

namespace Assembly

open Text (Blanks)

theorem eq_nil_of_blanks {gap word rest cs : List Char} {c : Char} (hgap : Blanks gap)
    (hc : Text.isBlank c = false) (h : gap ++ (word ++ rest) = c :: cs) : gap = [] := by
  cases gap with
  | nil => rfl
  | cons b gap =>
    obtain ⟨rfl, -⟩ := List.cons.inj h
    have hb := hgap b List.mem_cons_self
    rw [hc] at hb
    cases hb

/-- A line that starts with a capital letter can say one thing only, an operation that starts
with this letter. -/
theorem Says.exists_operation {cs : List Char} {o : Option Statement} (h : Says ('A' :: cs) o) :
    ∃ mnemonic operands, o = some (.op mnemonic operands) ∧
      mnemonic.toList.head? = some 'A' := by
  generalize hline : 'A' :: cs = line at h
  cases h with
  | blank hblank =>
    have hA := hblank 'A' (by simp [← hline])
    exact absurd hA (by decide)
  | comment hgap hstart =>
    rw [eq_nil_of_blanks hgap (by decide) hline.symm] at hline
    rcases hstart with rfl | rfl <;> simp [commentChar, commentStart] at hline
  | data hgap =>
    rw [eq_nil_of_blanks hgap (by decide) hline.symm] at hline
    simp [dataKeyword] at hline
  | label hgap =>
    rw [eq_nil_of_blanks hgap (by decide) hline.symm] at hline
    simp [labelKeyword] at hline
  | @operation gap mnemonic rest operands hgap hmnemonic =>
    rw [eq_nil_of_blanks hgap (by decide) hline.symm] at hline
    refine ⟨_, _, rfl, ?_⟩
    obtain ⟨c, tail, rfl⟩ := List.exists_cons_of_ne_nil hmnemonic.1
    obtain ⟨rfl, -⟩ := List.cons.inj hline
    simp

/-- A text that starts with a capital letter is not assembled. -/
theorem not_capital_of_assemble {source : String} {p : Program} {cs : List Char}
    (h : Program.assemble source = .ok p) : source.toList ≠ 'A' :: cs := by
  intro hsource
  obtain ⟨stmts, hstmts, hassembled⟩ := assembled_of_assemble h
  obtain ⟨line, lines, hlines⟩ := Text.lines_cons (c := 'A') (by decide) (by decide) cs
  rw [statements_eq_ok_iff, hsource, hlines] at hstmts
  -- the first operation of the text would have an instruction
  have hall := hassembled.code
  cases hstmts with
  | skip hline => obtain ⟨_, _, ⟨⟩, -⟩ := hline.exists_operation
  | statement hline =>
    obtain ⟨mnemonic, operands, ⟨⟩, hhead⟩ := hline.exists_operation
    obtain ⟨i, code, ⟨form, _, hform, -⟩, -⟩ := List.forall₂_cons_left_iff.mp hall
    rw [Form.ofMnemonic?_of_capital hhead] at hform
    cases hform

/-- The bytes of a text that is assembled do not start as an image does. -/
theorem not_magic_of_assemble {source : String} {p : Program}
    (h : Program.assemble source = .ok p) : ¬ Image.magic <+: Utf8.encode source.toList := by
  rintro ⟨rest, hrest⟩
  cases hsource : source.toList with
  | nil =>
    rw [hsource] at hrest
    cases hrest
  | cons c cs =>
    obtain ⟨b, bytes, hbytes⟩ := List.exists_cons_of_ne_nil (String.utf8EncodeChar_ne_nil (c := c))
    have hhead : Utf8.encode source.toList = b :: (bytes ++ Utf8.encode cs) := by
      rw [hsource, Utf8.encode, List.flatMap_cons, hbytes]
      rfl
    obtain ⟨rfl, -⟩ := List.cons.inj (hrest.trans hhead)
    obtain rfl : c = 'A' := Utf8.eq_of_head_ascii (by decide) hbytes
    exact not_capital_of_assemble h hsource

end Assembly

/-! ### Loading -/

/-- The program without its labels. -/
def Program.unlabelled (p : Program) : Program := { p with labels := {} }

namespace Command

theorem load_of_assemble {source : String} {p : Program} (h : Program.assemble source = .ok p)
    (path : String) : load path (Utf8.encode source.toList) = .ok p := by
  have hmagic : Image.magic.isPrefixOf (Utf8.encode source.toList) = false := by
    rw [← Bool.not_eq_true, List.isPrefixOf_iff_prefix]
    exact Assembly.not_magic_of_assemble h
  simp [load, hmagic, Utf8.decode_encode, h, bind, Except.bind, Except.mapError]

theorem magic_prefix_toImage (p : Program) : Image.magic <+: p.toImage := by
  rw [Program.toImage_eq]
  exact List.prefix_append _ _

theorem load_toImage {p : Program} (h : p.Storable) (path : String) :
    load path p.toImage = .ok p.unlabelled := by
  have himage : Program.ofImage p.toImage = .ok p.unlabelled :=
    Program.ofImage_toImage (p := p.unlabelled) ⟨h.code_le, h.data_le, h.canonical⟩ rfl
  have hmagic := List.isPrefixOf_iff_prefix.mpr (magic_prefix_toImage p)
  simp [load, hmagic, himage, Except.mapError]

end Command

/-! ### Running without labels -/

namespace Machine

variable {H : Type}

/-- The machine with another program. -/
def withProgram (m : Machine H) (q : Program) : Machine H := { m with program := q }

theorem ofConfig_withProgram {p q : Program} (h : q.data = p.data) (config : Config) (host : H) :
    ofConfig q config host = (ofConfig p config host).withProgram q := by
  simp [ofConfig, withProgram, h]

/-- Two runs have come to the same end, in whatever program. -/
structure EndsAlike (left right : Except Trap Bool × Machine H) : Prop where
  answer : right.1 = left.1
  core : right.2.core = left.2.core
  memory : right.2.memory = left.2.memory
  host : right.2.host = left.2.host
  ip : right.2.ip = left.2.ip
  state : right.2.state = left.2.state
  exit : Command.exitCode right.2 = Command.exitCode left.2
  passed : ∀ more, left.1 = .ok more → Command.exitCode left.2 = 0
  failed : ∀ trap, left.1 = .error trap → Command.exitCode left.2 = 1

theorem exitCode_of_state {m : Machine H} (h : ∀ trap, m.state ≠ .faulted trap) :
    Command.exitCode m = 0 := by
  unfold Command.exitCode
  split
  · exact absurd ‹_› (h _)
  · rfl
  · rfl

variable [Host H]

theorem attempt_of_code {p q : Program} (h : q.code = p.code) (ip : Pos) (ctx : Context H) :
    attempt q ip ctx = attempt p ip ctx := by
  simp only [attempt, Program.instr?, h]

/-- **One step.**  It depends on the code of the program and on nothing else of it. -/
theorem step_withProgram {m : Machine H} {q : Program} (h : q.code = m.program.code) :
    (m.withProgram q).step = (m.step.1, m.step.2.withProgram q) := by
  obtain ⟨ctx, program, ip, state⟩ := m
  cases state with
  | halted | faulted => rfl
  | running =>
    simp only [withProgram, step, attempt_of_code h]
    split <;> rfl

theorem runFor_withProgram {m : Machine H} {q : Program} (h : q.code = m.program.code) (n : Nat) :
    (m.withProgram q).runFor n = ((m.runFor n).1, (m.runFor n).2.withProgram q) := by
  induction n generalizing m with
  | zero => rfl
  | succ n ih =>
    have hprogram := (steps_step m).program_eq
    simp only [runFor, step_withProgram h]
    generalize m.step = ended at hprogram
    obtain ⟨answer, m'⟩ := ended
    rcases answer with trap | more
    · rfl
    · cases more with
      | false => rfl
      | true => exact ih (h.trans (congrArg Program.code hprogram.symm))

/-- A run that began unharmed has failed exactly if its last answer is a trap. -/
theorem state_runFor {m : Machine H} (h : ∀ trap, m.state ≠ .faulted trap) (n : Nat) (trap : Trap) :
    (m.runFor n).1 = .error trap ↔ (m.runFor n).2.state = .faulted trap := by
  induction n generalizing m with
  | zero => simp [runFor, h]
  | succ n ih =>
    have hstep : ∀ trap, m.step.1 = .error trap ↔ m.step.2.state = .faulted trap :=
      fun _ => (steps_step m).eq_error_iff
    simp only [runFor]
    generalize m.step = ended at hstep
    obtain ⟨answer, m'⟩ := ended
    rcases answer with trap' | more
    · exact hstep trap
    · cases more with
      | false => exact hstep trap
      | true => exact ih fun trap' => (not_congr (hstep trap')).mp (by simp)

theorem endsAlike_runFor {p q : Program} (hcode : q.code = p.code) (hdata : q.data = p.data)
    (config : Config) (host : H) (n : Nat) :
    EndsAlike ((ofConfig p config host).runFor n) ((ofConfig q config host).runFor n) := by
  have hfresh : ∀ trap, (ofConfig p config host).state ≠ .faulted trap := by simp [ofConfig]
  have hend := state_runFor hfresh n
  rw [ofConfig_withProgram hdata, runFor_withProgram hcode]
  refine ⟨rfl, rfl, rfl, rfl, rfl, rfl, rfl, ?_, ?_⟩
  · intro more hmore
    apply exitCode_of_state
    intro trap htrap
    cases hmore.symm.trans ((hend trap).mpr htrap)
  · intro trap htrap
    simp only [Command.exitCode, (hend trap).mp htrap]

end Machine

/-! ### Reports -/

/-- A note on a place, or none. -/
def IsNote (note : String) : Prop := note = "" ∨ ∃ place, note = " (" ++ place ++ ")"

theorem Program.exists_describe (p : Program) (pos : Pos) :
    ∃ note, IsNote note ∧ p.describe pos = posText pos ++ note := by
  unfold describe
  split
  · exact ⟨"", .inl rfl, by simp⟩
  · rename_i name _
    exact ⟨" (" ++ name ++ ")", .inr ⟨name, rfl⟩, by simp [String.append_assoc]⟩
  · rename_i name d _ _
    exact ⟨" (" ++ (name ++ "+" ++ toString d) ++ ")", .inr ⟨_, rfl⟩, by simp [String.append_assoc]⟩

theorem Program.describe_unlabelled (p : Program) (pos : Pos) :
    p.unlabelled.describe pos = posText pos := rfl

namespace Command

/-- Two reports differ at most in a note on a place. -/
structure Report.AlikeButNote (left right : Report) : Prop where
  exit : right.exit = left.exit
  stdout : right.stdout = left.stdout
  stderr : ∃ front note back, IsNote note ∧ left.stderr = front ++ note ++ back ∧
    right.stderr = front ++ back

theorem stepText_withProgram {H : Type} [Host H] {m : Machine H} {q : Program}
    (h : q.code = m.program.code) : Trace.stepText (m.withProgram q) = Trace.stepText m := by
  simp only [Trace.stepText, Machine.withProgram, Machine.attempt_of_code h]

theorem runFor_withProgram {m : Machine Writer} {q : Program} (h : q.code = m.program.code)
    (traced : Bool) (n : Nat) (trace : String) :
    runFor traced n trace (m.withProgram q) =
      ((runFor traced n trace m).1, (runFor traced n trace m).2.withProgram q) := by
  induction n generalizing m trace with
  | zero => rfl
  | succ n ih =>
    have hprogram := (Machine.steps_step m).program_eq
    have hstate : (m.withProgram q).state = m.state := rfl
    simp only [runFor, hstate, stepText_withProgram h, Machine.step_withProgram h]
    split
    · exact ih (h.trans (congrArg Program.code hprogram.symm)) _
    · rfl
    · rfl

/-- A program without labels leaves the note out. -/
theorem alikeButNote_withProgram (traced : Bool) (trace : String) (m : Machine Writer)
    (p : Program) : (Report.ofMachine traced trace m).AlikeButNote
      (Report.ofMachine traced trace (m.withProgram p.unlabelled)) := by
  refine ⟨rfl, rfl, ?_⟩
  cases hstate : m.state with
  | running | halted =>
    refine ⟨trace, "", "", .inl rfl, ?_, ?_⟩
    · simp [Report.ofMachine, closingText, hstate]
    · simp [Report.ofMachine, closingText, Machine.withProgram, hstate]
  | faulted trap =>
    obtain ⟨note, hnote, hdescribe⟩ := m.program.exists_describe trap.pos
    refine ⟨trace ++ ("fault: " ++ trap.fault.message ++ " at " ++ posText trap.pos), note,
      "\n" ++ if traced then coreDump m.core else "", hnote, ?_, ?_⟩
    · simp [Report.ofMachine, closingText, hstate, faultLine, hdescribe, String.append_assoc]
    · simp [Report.ofMachine, closingText, Machine.withProgram, hstate, faultLine,
        Program.describe_unlabelled, String.append_assoc]

/-- **A compiled program runs as its text.**  A text that is assembled is not taken for an
image and loads as its program; the image loads as the program without labels.  On every
host and after any number of steps the two have come to the same end, and the reports of a
command that runs them differ at most in the note on the place of a fault. -/
theorem compiled_runs_as_text {source : String} {p : Program}
    (h : Program.assemble source = .ok p) :
    ((¬ Image.magic <+: Utf8.encode source.toList) ∧
      ∀ path, load path (Utf8.encode source.toList) = .ok p) ∧
    (Image.magic <+: p.toImage ∧ ∀ path, load path p.toImage = .ok p.unlabelled) ∧
    (∀ (H : Type) [Host H] (config : Config) (host : H) (n : Nat),
      Machine.EndsAlike ((Machine.ofConfig p config host).runFor n)
        ((Machine.ofConfig p.unlabelled config host).runFor n)) ∧
    ∀ (config : Config) (host : Writer) (traced : Bool) (n : Nat) trace m,
      runFor traced n "" (Machine.ofConfig p config host) = (trace, m) →
      ∃ m', runFor traced n "" (Machine.ofConfig p.unlabelled config host) = (trace, m') ∧
        (Report.ofMachine traced trace m).AlikeButNote (Report.ofMachine traced trace m') := by
  refine ⟨⟨Assembly.not_magic_of_assemble h, load_of_assemble h⟩,
    ⟨magic_prefix_toImage p, load_toImage (Program.storable_of_assemble h)⟩, ?_, ?_⟩
  · intro H _ config host n
    exact Machine.endsAlike_runFor (p := p) (q := p.unlabelled) rfl rfl config host n
  · intro config host traced n trace m hrun
    refine ⟨m.withProgram p.unlabelled, ?_, alikeButNote_withProgram traced trace m p⟩
    have hstart := Machine.ofConfig_withProgram (p := p) (q := p.unlabelled) rfl config host
    have hcode : p.unlabelled.code = (Machine.ofConfig p config host).program.code := rfl
    rw [hstart, runFor_withProgram hcode, hrun]

/-- A fault behind a label.  The text shows the label and the image does not. -/
theorem compiled_runs_as_text_sample :
    ∃ p, Program.assemble "set 1\nlabel here\ndiv 9" = .ok p ∧
      load "a.acc" (Utf8.encode "set 1\nlabel here\ndiv 9".toList) = .ok p ∧
      load "a.img" p.toImage = .ok p.unlabelled ∧ p.labels["here"]? = some (.code 1) ∧
      ((Machine.ofConfig p.unlabelled {} ({} : Writer)).runFor 3).1 =
        .error ⟨1, .invalidRegister 9⟩ := by
  have hrun : (Program.assemble "set 1\nlabel here\ndiv 9").map
      (fun p => (p.labels["here"]?, ((Machine.ofConfig p {} ({} : Writer)).runFor 3).1)) =
      .ok (some (.code 1), .error ⟨1, .invalidRegister 9⟩) := by
    decide +kernel
  obtain ⟨p, hp, hparts⟩ := Outcome.map_eq_ok_iff.mp hrun
  obtain ⟨hlabel, hfault⟩ := Prod.mk.inj hparts
  obtain ⟨⟨-, htext⟩, ⟨-, himage⟩, hends, -⟩ := compiled_runs_as_text hp
  exact ⟨p, hp, htext _, himage _, hlabel, (hends Writer {} {} 3).answer.trans hfault⟩

end Command

end Accumulator
