/-
  Accumulator/Proofs/Translation.lean
  ===================================
  **What an operation of program text means.**

  The meaning of an operation is given in two layers.  `Denotes` says what one operand
  stands for: a name stands for what it is bound to, a numeral for its value in the
  word of its kind.  `Translates` then asks for the form of the mnemonic, and for
  operands that the form takes and the text denotes, one by one.  Neither mentions
  lines, errors or the order in which operands are looked at.

  Assembling an operation against a table of bindings succeeds exactly on the
  operations that have a meaning, and gives it (`assembleOp_eq_ok_iff`).
-/
import Accumulator.Assembly.Assemble
import Accumulator.Proofs.Form
import Accumulator.Proofs.Outcome

namespace Accumulator.Assembly

/-- A text is a numeral for `v`, and `v` is an integer of the kind. -/
def Numeric (kind : NumericKind) (x : String) (v : Int) : Prop :=
  Numeral.parse? x.toList = some v ∧ kind.least ≤ v ∧ v ≤ kind.greatest

/-- What an operand of program text stands for, given what names are bound to. -/
inductive Denotes (binds : String → Label → Prop) : String → Operand → Prop
  | target {x : String} {pos : Pos} (h : binds x (.code pos)) : Denotes binds x (.target pos)
  | literal {x : String} {ref : DataRef} (h : binds x (.data ref)) :
      Denotes binds x (.literal ref)
  | immediate {x : String} {v : Int} {val : Int32} (h : Numeric .immediate x v)
      (hval : Int32.ofInt v = val) : Denotes binds x (.immediate val)
  | register {x : String} {v : Int} {reg : RegIndex} (h : Numeric .register x v)
      (hreg : UInt8.ofNat v.toNat = reg) : Denotes binds x (.register reg)
  | address {x : String} {v : Int} {addr : UInt32} (h : Numeric .address x v)
      (haddr : UInt32.ofNat v.toNat = addr) : Denotes binds x (.address addr)
  | number {x : String} {v : Int} {no : UInt8} (h : Numeric .syscall x v)
      (hno : UInt8.ofNat v.toNat = no) : Denotes binds x (.number no)

/-- The instruction that an operation, a mnemonic with operands, stands for. -/
def Translates (binds : String → Label → Prop) (op : String × List String) (i : Instr) : Prop :=
  ∃ form operands, Form.ofMnemonic? op.1 = some form ∧ form.Makes operands i ∧
    List.Forall₂ (Denotes binds) op.2 operands

/-! ### Operands -/

theorem integer_eq_ok_iff {kind : NumericKind} {line : Nat} {x : String} {v : Int} :
    integer kind line x = .ok v ↔ Numeric kind x v := by
  unfold integer Numeric
  cases hparse : Numeral.parse? x.toList with
  | none => simp
  | some w =>
    by_cases hrange : kind.least ≤ w ∧ w ≤ kind.greatest
    · simp only [hrange, and_self, if_true, Except.ok.injEq, Option.some.injEq]
      constructor
      · intro h
        subst h
        exact ⟨rfl, hrange⟩
      · intro h
        obtain ⟨rfl, -⟩ := h
        rfl
    · simp only [if_neg hrange, reduceCtorEq, Option.some.injEq, false_iff]
      intro h
      obtain ⟨rfl, h⟩ := h
      exact hrange h

variable {binds : String → Label → Prop} {line : Nat} {x : String}

theorem map_integer_eq_ok_iff {α : Type} {kind : NumericKind} {word : Int → α} {a : α} :
    (integer kind line x).map word = .ok a ↔ ∃ v, Numeric kind x v ∧ word v = a := by
  simp only [Outcome.map_eq_ok_iff, integer_eq_ok_iff]

theorem immediate_eq_ok_iff {val : Int32} :
    immediate line x = .ok val ↔ Denotes binds x (.immediate val) := by
  rw [immediate, map_integer_eq_ok_iff]
  constructor
  · intro h
    obtain ⟨v, hv, hval⟩ := h
    exact .immediate hv hval
  · intro h
    cases h with
    | immediate hv hval => exact ⟨_, hv, hval⟩

theorem register_eq_ok_iff {reg : RegIndex} :
    register line x = .ok reg ↔ Denotes binds x (.register reg) := by
  rw [register, map_integer_eq_ok_iff]
  constructor
  · intro h
    obtain ⟨v, hv, hreg⟩ := h
    exact .register hv hreg
  · intro h
    cases h with
    | register hv hreg => exact ⟨_, hv, hreg⟩

theorem address_eq_ok_iff {addr : UInt32} :
    address line x = .ok addr ↔ Denotes binds x (.address addr) := by
  rw [address, map_integer_eq_ok_iff]
  constructor
  · intro h
    obtain ⟨v, hv, haddr⟩ := h
    exact .address hv haddr
  · intro h
    cases h with
    | address hv haddr => exact ⟨_, hv, haddr⟩

theorem number_eq_ok_iff {no : UInt8} :
    number line x = .ok no ↔ Denotes binds x (.number no) := by
  rw [number, map_integer_eq_ok_iff]
  constructor
  · intro h
    obtain ⟨v, hv, hno⟩ := h
    exact .number hv hno
  · intro h
    cases h with
    | number hv hno => exact ⟨_, hv, hno⟩

/-- What a table of bindings binds a name to. -/
def Bindings.Binds (bindings : Bindings) (name : String) (label : Label) : Prop :=
  ∃ line, bindings[name]? = some ⟨label, line⟩

theorem resolve_eq_ok_iff {bindings : Bindings} {label : Label} :
    resolve bindings line x = .ok label ↔ bindings.Binds x label := by
  unfold resolve Bindings.Binds
  cases bindings[x]? with
  | none => simp
  | some b =>
    simp only [Except.ok.injEq, Option.some.injEq]
    constructor
    · intro h
      subst h
      exact ⟨b.line, rfl⟩
    · intro h
      obtain ⟨_, rfl⟩ := h
      rfl

theorem target_eq_ok_iff {bindings : Bindings} {pos : Pos} :
    target bindings line x = .ok pos ↔ Denotes bindings.Binds x (.target pos) := by
  unfold target
  rw [Outcome.bind_eq_ok_iff]
  constructor
  · intro h
    rcases h with ⟨_ | ref, hlabel, hpos⟩
    · cases hpos
      exact .target (resolve_eq_ok_iff.mp hlabel)
    · cases hpos
  · intro h
    cases h with
    | target h => exact ⟨.code pos, resolve_eq_ok_iff.mpr h, rfl⟩

theorem literal_eq_ok_iff {bindings : Bindings} {ref : DataRef} :
    literal bindings line x = .ok ref ↔ Denotes bindings.Binds x (.literal ref) := by
  unfold literal
  rw [Outcome.bind_eq_ok_iff]
  constructor
  · intro h
    rcases h with ⟨pos | _, hlabel, href⟩
    · cases href
    · cases href
      exact .literal (resolve_eq_ok_iff.mp hlabel)
  · intro h
    cases h with
    | literal h => exact ⟨.data ref, resolve_eq_ok_iff.mpr h, rfl⟩

/-! ### Operations -/

theorem fill_of_length_ne {bindings : Bindings} {mnemonic : String} {form : Form}
    {xs : List String} (h : xs.length ≠ form.arity) :
    fill bindings line mnemonic form xs =
      .error (.arity mnemonic line form.arity xs.length) := by
  unfold fill
  split <;> first | rfl | exact absurd rfl h

theorem length_of_makes {form : Form} {operands : List Operand} {i : Instr}
    (h : form.Makes operands i) : operands.length = form.arity := by
  cases h <;> rfl

/-- A form of one operand is filled by what the one text denotes. -/
theorem fill_one_eq_ok_iff {α : Type} {form : Form} {make : α → Instr} {wrap : α → Operand}
    {read : Except Error α} {i : Instr}
    (hmakes : ∀ a, form.Makes [wrap a] (make a))
    (honly : ∀ operands, form.Makes operands i → ∃ a, operands = [wrap a] ∧ i = make a)
    (hread : ∀ a, read = .ok a ↔ Denotes binds x (wrap a)) :
    (do return make (← read)) = Except.ok (ε := Error) i ↔
      ∃ operands, form.Makes operands i ∧ List.Forall₂ (Denotes binds) [x] operands := by
  rw [Outcome.bind_eq_ok_iff]
  constructor
  · intro h
    obtain ⟨a, ha, hmake⟩ := h
    cases hmake
    exact ⟨[wrap a], hmakes a, .cons ((hread a).mp ha) .nil⟩
  · intro h
    obtain ⟨operands, h, hall⟩ := h
    obtain ⟨a, rfl, rfl⟩ := honly operands h
    cases hall with
    | cons hx _ => exact ⟨a, (hread a).mpr hx, rfl⟩

/-- Filling a form takes exactly the operands that the texts denote. -/
theorem fill_eq_ok_iff {bindings : Bindings} {mnemonic : String} {form : Form}
    {xs : List String} {i : Instr} :
    fill bindings line mnemonic form xs = .ok i ↔
      ∃ operands, form.Makes operands i ∧ List.Forall₂ (Denotes bindings.Binds) xs operands := by
  by_cases hlen : xs.length = form.arity
  · cases form with
    | plain instr =>
      obtain rfl := List.length_eq_zero_iff.mp hlen
      constructor
      · intro h
        cases h
        exact ⟨[], .plain i, .nil⟩
      · intro h
        obtain ⟨_, ⟨⟩, -⟩ := h
        rfl
    | registerImmediate make =>
      obtain ⟨x, y, rfl⟩ := List.length_eq_two.mp hlen
      constructor
      · intro h
        obtain ⟨reg, hreg, h⟩ := Outcome.bind_eq_ok_iff.mp h
        obtain ⟨val, hval, h⟩ := Outcome.bind_eq_ok_iff.mp h
        cases h
        exact ⟨_, .registerImmediate make reg val,
          .cons (register_eq_ok_iff.mp hreg) (.cons (immediate_eq_ok_iff.mp hval) .nil)⟩
      · intro h
        obtain ⟨_, ⟨⟩, hall⟩ := h
        rename_i reg val
        cases hall with
        | cons hx hall =>
          cases hall with
          | cons hy _ =>
            exact Outcome.bind_eq_ok_iff.mpr ⟨reg, register_eq_ok_iff.mpr hx,
              Outcome.bind_eq_ok_iff.mpr ⟨val, immediate_eq_ok_iff.mpr hy, rfl⟩⟩
    | target make =>
      obtain ⟨x, rfl⟩ := List.length_eq_one_iff.mp hlen
      exact fill_one_eq_ok_iff (.target make) (by rintro _ ⟨⟩; exact ⟨_, rfl, rfl⟩)
        fun _ => target_eq_ok_iff
    | immediate make =>
      obtain ⟨x, rfl⟩ := List.length_eq_one_iff.mp hlen
      exact fill_one_eq_ok_iff (.immediate make) (by rintro _ ⟨⟩; exact ⟨_, rfl, rfl⟩)
        fun _ => immediate_eq_ok_iff
    | register make =>
      obtain ⟨x, rfl⟩ := List.length_eq_one_iff.mp hlen
      exact fill_one_eq_ok_iff (.register make) (by rintro _ ⟨⟩; exact ⟨_, rfl, rfl⟩)
        fun _ => register_eq_ok_iff
    | address make =>
      obtain ⟨x, rfl⟩ := List.length_eq_one_iff.mp hlen
      exact fill_one_eq_ok_iff (.address make) (by rintro _ ⟨⟩; exact ⟨_, rfl, rfl⟩)
        fun _ => address_eq_ok_iff
    | literal make =>
      obtain ⟨x, rfl⟩ := List.length_eq_one_iff.mp hlen
      exact fill_one_eq_ok_iff (.literal make) (by rintro _ ⟨⟩; exact ⟨_, rfl, rfl⟩)
        fun _ => literal_eq_ok_iff
    | number make =>
      obtain ⟨x, rfl⟩ := List.length_eq_one_iff.mp hlen
      exact fill_one_eq_ok_iff (.number make) (by rintro _ ⟨⟩; exact ⟨_, rfl, rfl⟩)
        fun _ => number_eq_ok_iff
  · rw [fill_of_length_ne hlen]
    constructor
    · intro h
      cases h
    · intro h
      obtain ⟨operands, hmakes, hall⟩ := h
      exact absurd (hall.length_eq.trans (length_of_makes hmakes)) hlen

/-- Assembling an operation gives its meaning, and fails if it has none. -/
theorem assembleOp_eq_ok_iff {bindings : Bindings} {op : String × List String} {i : Instr} :
    assembleOp bindings line op.1 op.2 = .ok i ↔ Translates bindings.Binds op i := by
  unfold assembleOp Translates
  cases hform : Form.ofMnemonic? op.1 with
  | none => simp
  | some form =>
    rw [fill_eq_ok_iff]
    constructor
    · intro h
      obtain ⟨operands, hmakes, hall⟩ := h
      exact ⟨form, operands, rfl, hmakes, hall⟩
    · intro h
      obtain ⟨form', operands, hform', hmakes, hall⟩ := h
      cases hform'
      exact ⟨operands, hmakes, hall⟩

/-! ### What a meaning determines -/

theorem Translates.mono {binds' : String → Label → Prop} {op : String × List String} {i : Instr}
    (hbinds : ∀ name label, binds name label → binds' name label) (h : Translates binds op i) :
    Translates binds' op i := by
  obtain ⟨form, operands, hform, hmakes, hall⟩ := h
  refine ⟨form, operands, hform, hmakes, hall.imp ?_⟩
  intro x operand hx
  cases hx with
  | target h => exact .target (hbinds _ _ h)
  | literal h => exact .literal (hbinds _ _ h)
  | immediate h hval => exact .immediate h hval
  | register h hreg => exact .register h hreg
  | address h haddr => exact .address h haddr
  | number h hno => exact .number h hno

/-- Every operand of the instruction is denoted by an operand of the text. -/
theorem Translates.exists_denotes {op : String × List String} {i : Instr} {operand : Operand}
    (h : Translates binds op i) (hmem : operand ∈ i.operands) :
    ∃ x ∈ op.2, Denotes binds x operand := by
  obtain ⟨form, operands, hform, hmakes, hall⟩ := h
  rw [hmakes.operands_eq hform] at hmem
  obtain ⟨k, hk, rfl⟩ := List.getElem_of_mem hmem
  have hk' : k < op.2.length := by
    rw [hall.length_eq]
    exact hk
  exact ⟨op.2[k], List.getElem_mem hk', hall.get hk' hk⟩

end Accumulator.Assembly
