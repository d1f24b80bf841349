/-
  Accumulator/Proofs/Footprint.lean
  =================================
  **The tables of locations tell the truth.**

  `Instr.reads` and `Instr.writes` list the locations of an instruction, and
  `Instr.exec` says what the instruction does.  That the lists are right means two
  things:

    * a location that is not listed as written holds what it held, also after a fault;
    * what is not listed as read plays no part: cores that agree on the listed
      locations come to the same end, and agree on what was written.

  Both are shown for the parts of an instruction and carried over to the whole.  A part
  has a footprint, the locations it reads and those it writes (`Uses`); a sequence has
  the footprints of its parts one behind the other.  So `uses_exec` first collects the
  footprint of each instruction and then compares it with the tables.

  The call stack counts as one location.  Every push and pop depends on the whole of it
  and on its limit, so these are always taken to be equal.  Besides the registers the
  footprint says whether the host is called: only system calls do that.
-/
import Accumulator.Instr.Registers
import Accumulator.Proofs.Exec

namespace Accumulator

/-! ### Agreement at a location -/

namespace Core

/-- The two cores hold the same at a location; at the top of the call stack, the same
stack. -/
def AgreeAt (c d : Core) : Register → Prop
  | .main => d.main = c.main
  | .side idx => d.getSide idx = c.getSide idx
  | .condition => d.condition = c.condition
  | .stackTop => d.stack = c.stack

instance (c d : Core) : DecidablePred (c.AgreeAt d)
  | .main => inferInstanceAs (Decidable (d.main = c.main))
  | .side idx => inferInstanceAs (Decidable (d.getSide idx = c.getSide idx))
  | .condition => inferInstanceAs (Decidable (d.condition = c.condition))
  | .stackTop => inferInstanceAs (Decidable (d.stack = c.stack))

theorem AgreeAt.refl (c : Core) (r : Register) : c.AgreeAt c r := by
  cases r <;> rfl

theorem AgreeAt.symm {c d : Core} {r : Register} (h : c.AgreeAt d r) : d.AgreeAt c r := by
  cases r <;> exact Eq.symm h

theorem AgreeAt.trans {c d e : Core} {r : Register} (h : c.AgreeAt d r) (h' : d.AgreeAt e r) :
    c.AgreeAt e r := by
  cases r <;> exact Eq.trans h' h

theorem slot_val {idx : RegIndex} {i : Fin sideRegisters} (h : slot idx = .ok i) :
    i.val = idx.toNat := by
  unfold slot slot? at h
  split at h
  · rename_i j hj
    split at hj
    · cases hj
      cases h
      rfl
    · cases hj
  · cases h

theorem getSide_of_slot {idx : RegIndex} {i : Fin sideRegisters} (h : slot idx = .ok i)
    (c : Core) : c.getSide idx = .ok (c.side.get i) := by
  rw [getSide, h]
  rfl

/-- A slot belongs to one index; under every other index the register file looks the same. -/
theorem getSide_of_ne {reg idx : RegIndex} {i : Fin sideRegisters} (h : slot reg = .ok i)
    (hne : idx ≠ reg) (c : Core) (v : Int32) : (c.setSlot i v).getSide idx = c.getSide idx := by
  cases hslot : slot idx with
  | error fault => rw [getSide, getSide, hslot]; rfl
  | ok j =>
    have hij : i.val ≠ j.val := by
      rw [slot_val h, slot_val hslot]
      intro heq
      exact hne (UInt8.toNat_inj.mp heq).symm
    rw [getSide_of_slot hslot, getSide_of_slot hslot]
    congr 1
    exact Vector.getElem_set_ne i.isLt j.isLt hij

theorem getSide_setSlot {reg : RegIndex} {i : Fin sideRegisters} (h : slot reg = .ok i)
    (c : Core) (v : Int32) : (c.setSlot i v).getSide reg = .ok v := by
  rw [getSide_of_slot h]
  congr 1
  exact Vector.getElem_set_self i.isLt

end Core

/-! ### Footprints -/

namespace Exec

variable {H α β : Type} {prints : Prop}

/-- What a computation leaves alone that writes the locations `writes`. -/
structure Frame (prints : Prop) (writes : List Register) (c c' : Context H) : Prop where
  registers : ∀ r, r ∉ writes → c.core.AgreeAt c'.core r
  steps : c'.core.steps = c.core.steps
  stackMax : c'.core.stackMax = c.core.stackMax
  stepLimit : c'.core.stepLimit = c.core.stepLimit
  host : ¬ prints → c'.host = c.host

/-- The contexts are alike for a computation that reads nothing but the locations `S`.  The
hosts matter only if it prints. -/
structure Alike (prints : Prop) (S : Register → Prop) (c d : Context H) : Prop where
  registers : ∀ r, S r → c.core.AgreeAt d.core r
  stack : d.core.stack = c.core.stack
  stackMax : d.core.stackMax = c.core.stackMax
  memory : d.memory = c.memory
  host : prints → d.host = c.host

/-- The two ends are the same, by a value in contexts alike for `T` or by a fault in contexts
alike for `S`. -/
def SameEnds (prints : Prop) (S T : Register → Prop) :
    EStateM.Result Fault (Context H) α → EStateM.Result Fault (Context H) α → Prop
  | .ok a c, .ok b d => b = a ∧ Alike prints T c d
  | .error e c, .error e' d => e' = e ∧ Alike prints S c d
  | _, _ => False

/-- The computation has no other effect on the core than to write the locations `writes`, and
what it does there depends on the locations `reads` alone. -/
structure Uses (prints : Prop) (reads writes : List Register) (x : Exec H α) : Prop where
  frame : ∀ ctx, Ends x (fun _ => Frame prints writes ctx) (fun _ => Frame prints writes ctx) ctx
  same : ∀ S : Register → Prop, (∀ r ∈ reads, S r) → ∀ c d, Alike prints S c d →
    SameEnds prints S (fun r => S r ∨ r ∈ writes) (x c) (x d)

section

variable {R R' W W' : List Register} {S T : Register → Prop} {c c' c'' d : Context H}

theorem Frame.refl (c : Context H) : Frame prints W c c :=
  ⟨fun r _ => .refl _ r, rfl, rfl, rfl, fun _ => rfl⟩

theorem Frame.mono (h : Frame prints W c c') (hW : ∀ r ∈ W, r ∈ W') :
    Frame prints W' c c' :=
  { h with registers := fun r hr => h.registers r fun hmem => hr (hW r hmem) }

theorem Frame.trans (h : Frame prints W c c') (h' : Frame prints W c' c'') :
    Frame prints W c c'' where
  registers r hr := (h.registers r hr).trans (h'.registers r hr)
  steps := h'.steps.trans h.steps
  stackMax := h'.stackMax.trans h.stackMax
  stepLimit := h'.stepLimit.trans h.stepLimit
  host hp := (h'.host hp).trans (h.host hp)

theorem Alike.mono (h : Alike prints T c d) (hST : ∀ r, S r → T r) : Alike prints S c d :=
  { h with registers := fun r hr => h.registers r (hST r hr) }

theorem SameEnds.mono {S' T' : Register → Prop} {r r' : EStateM.Result Fault (Context H) α}
    (h : SameEnds prints S T r r') (hS : ∀ reg, S' reg → S reg) (hT : ∀ reg, T' reg → T reg) :
    SameEnds prints S' T' r r' := by
  cases r <;> cases r'
  · exact ⟨h.1, h.2.mono hT⟩
  · exact h
  · exact h
  · exact ⟨h.1, h.2.mono hS⟩

/-! ### Sequences -/

theorem Uses.mono {x : Exec H α} (h : Uses prints R W x) (hR : ∀ r ∈ R, r ∈ R')
    (hW : ∀ r, r ∈ W ↔ r ∈ W') : Uses prints R' W' x where
  frame ctx := by
    apply (h.frame ctx).imp
    · intro a ctx' hframe
      exact hframe.mono fun r => (hW r).mp
    · intro fault ctx' hframe
      exact hframe.mono fun r => (hW r).mp
  same S hS c d hcd := by
    apply (h.same S (fun r hr => hS r (hR r hr)) c d hcd).mono
    · intro r hr
      exact hr
    · intro r hr
      exact hr.imp_right (hW r).mpr

/-- The footprint of a sequence. -/
theorem Uses.bind {x : Exec H β} {k : β → Exec H α} (hx : Uses prints R W x)
    (hk : ∀ b, Uses prints R' W' (k b)) : Uses prints (R ++ R') (W ++ W') (x >>= k) where
  frame ctx := by
    rw [ends_bind]
    apply (hx.frame ctx).imp
    · intro b mid hmid
      have hfirst : Frame prints (W ++ W') ctx mid :=
        hmid.mono fun r hr => List.mem_append_left W' hr
      apply ((hk b).frame mid).imp
      · intro a ctx' h
        exact hfirst.trans (h.mono fun r hr => List.mem_append_right W hr)
      · intro fault ctx' h
        exact hfirst.trans (h.mono fun r hr => List.mem_append_right W hr)
    · intro fault ctx' h
      exact h.mono fun r hr => List.mem_append_left W' hr
  same S hS c d hcd := by
    have hfirst := hx.same S (fun r hr => hS r (List.mem_append_left R' hr)) c d hcd
    simp only [Bind.bind, EStateM.bind]
    cases hc : x c <;> cases hd : x d <;> rw [hc, hd] at hfirst
    · obtain ⟨rfl, hmid⟩ := hfirst
      -- the second part finds alike what the first has found alike or has written
      apply ((hk _).same _ (fun r hr => .inl (hS r (List.mem_append_right R hr))) _ _ hmid).mono
      · intro r hr
        exact .inl hr
      · intro r hr
        simpa only [List.mem_append, or_assoc] using hr
    · exact hfirst.elim
    · exact hfirst.elim
    · exact hfirst

/-- From contexts alike in what is read, both computations come to a value or both to a fault. -/
theorem Uses.ends_cases {x : Exec H α} (h : Uses prints R W x) (hS : ∀ r ∈ R, S r)
    (hcd : Alike prints S c d) :
    (∃ a c' d', x c = .ok a c' ∧ x d = .ok a d' ∧ Alike prints (fun r => S r ∨ r ∈ W) c' d' ∧
        Frame prints W c c' ∧ Frame prints W d d') ∨
      ∃ fault c' d', x c = .error fault c' ∧ x d = .error fault d' ∧ Alike prints S c' d' ∧
        Frame prints W c c' ∧ Frame prints W d d' := by
  have hsame := h.same S hS c d hcd
  have hc := h.frame c
  have hd := h.frame d
  unfold Ends at hc hd
  cases hxc : x c <;> cases hxd : x d <;> rw [hxc, hxd] at hsame <;> rw [hxc] at hc <;>
    rw [hxd] at hd
  · obtain ⟨rfl, halike⟩ := hsame
    exact .inl ⟨_, _, _, rfl, rfl, halike, hc, hd⟩
  · exact hsame.elim
  · exact hsame.elim
  · obtain ⟨rfl, halike⟩ := hsame
    exact .inr ⟨_, _, _, rfl, rfl, halike, hc, hd⟩

/-! ### The parts of instructions -/

theorem uses_pure (a : α) : Uses prints [] [] (pure a : Exec H α) where
  frame ctx := Frame.refl ctx
  same S _ c d hcd := ⟨rfl, hcd.mono fun r hr => by simpa using hr⟩

theorem uses_ask {f : Context H → Except Fault α}
    (h : ∀ c d, Alike prints (· ∈ R) c d → f d = f c) : Uses prints R [] (ask f) where
  frame ctx := by
    rw [ends_ask]
    exact ⟨fun _ _ => .refl ctx, fun _ _ => .refl ctx⟩
  same S hS c d hcd := by
    simp only [ask, h c d (hcd.mono hS)]
    cases f c with
    | ok a => exact ⟨rfl, hcd.mono fun r hr => by simpa using hr⟩
    | error e => exact ⟨rfl, hcd⟩

/-- A check on operands, with what it has found out for the rest. -/
theorem Uses.check {result : Except Fault β} {k : β → Exec H α}
    (h : ∀ b, result = .ok b → Uses prints R W (k b)) :
    Uses prints R W (ask (fun _ => result) >>= k) := by
  cases hresult : result with
  | ok b => exact h b hresult
  | error e =>
    constructor
    · intro ctx
      exact Frame.refl ctx
    · intro S _ c d hcd
      exact ⟨rfl, hcd⟩

/-- An update writes what it does not leave alone.  What it writes it must take from the
locations read, and from the call stack. -/
theorem uses_updateCore {f : Core → Core} (hkeeps : ∀ (c : Core) r, r ∉ W → c.AgreeAt (f c) r)
    (hsets : ∀ c d : Core, (∀ r ∈ R, c.AgreeAt d r) → d.stack = c.stack →
      ∀ r ∈ W, (f c).AgreeAt (f d) r)
    (hcontrol : ∀ c, (f c).steps = c.steps ∧ (f c).stackMax = c.stackMax ∧
      (f c).stepLimit = c.stepLimit) : Uses prints R W (updateCore f : Exec H Unit) where
  frame ctx := by
    obtain ⟨hsteps, hmax, hlimit⟩ := hcontrol ctx.core
    exact ⟨hkeeps ctx.core, hsteps, hmax, hlimit, fun _ => rfl⟩
  same S hS c d hcd := by
    have hset := hsets c.core d.core (fun r hr => hcd.registers r (hS r hr)) hcd.stack
    have hkept : ∀ r, r ∉ W → c.core.AgreeAt d.core r → (f c.core).AgreeAt (f d.core) r := by
      intro r hr hagree
      exact (hkeeps c.core r hr).symm.trans (hagree.trans (hkeeps d.core r hr))
    refine ⟨rfl, ?_, ?_, ?_, hcd.memory, hcd.host⟩
    · intro r hr
      by_cases hmem : r ∈ W
      · exact hset r hmem
      · exact hkept r hmem (hcd.registers r (hr.resolve_right hmem))
    · by_cases hmem : Register.stackTop ∈ W
      · exact hset .stackTop hmem
      · exact hkept .stackTop hmem hcd.stack
    · exact (hcontrol d.core).2.1.trans (hcd.stackMax.trans (hcontrol c.core).2.1.symm)

theorem uses_store (f : Memory → Except Fault Memory) :
    Uses prints [] [] (store f : Exec H Unit) where
  frame ctx := by
    unfold store
    rw [ends_bind, ends_ask]
    exact ⟨fun memory _ => ⟨fun r _ => .refl _ r, rfl, rfl, rfl, fun _ => rfl⟩,
      fun fault _ => .refl ctx⟩
  same S _ c d hcd := by
    simp only [store, ask_bind, hcd.memory]
    cases f c.memory with
    | ok memory =>
      exact ⟨rfl, fun r hr => hcd.registers r (by simpa using hr), hcd.stack, hcd.stackMax, rfl,
        hcd.host⟩
    | error e => exact ⟨rfl, hcd⟩

theorem uses_load (f : Memory → Except Fault α) : Uses prints [] [] (load f : Exec H α) :=
  uses_ask fun c d hcd => by rw [hcd.memory]

theorem uses_mainValue : Uses prints [.main] [] (mainValue : Exec H Int32) := by
  apply uses_ask
  intro c d hcd
  exact congrArg Except.ok (hcd.registers .main (by simp))

theorem uses_conditionCode : Uses prints [.condition] [] (conditionCode : Exec H Int) := by
  apply uses_ask
  intro c d hcd
  exact congrArg Except.ok (hcd.registers .condition (by simp))

theorem uses_sideValue (reg : RegIndex) :
    Uses prints [.side reg] [] (sideValue reg : Exec H Int32) := by
  apply uses_ask
  intro c d hcd
  exact hcd.registers (.side reg) (by simp)

theorem uses_setMain (v : Int32) :
    Uses prints [] [.main] (updateCore (Core.setMain v) : Exec H Unit) := by
  apply uses_updateCore
  · rintro c (_ | idx | _ | _) hr
    · simp at hr
    · rfl
    · rfl
    · rfl
  · intro c d _ _ r hr
    obtain rfl : r = .main := by simpa using hr
    rfl
  · exact fun _ => ⟨rfl, rfl, rfl⟩

theorem uses_putMain {value : Core → Int32}
    (hvalue : ∀ c d : Core, (∀ r ∈ R, c.AgreeAt d r) → value d = value c) :
    Uses prints R [.main, .condition]
      (updateCore (fun c => c.putMain (value c)) : Exec H Unit) := by
  apply uses_updateCore
  · rintro c (_ | idx | _ | _) hr
    · simp at hr
    · rfl
    · simp at hr
    · rfl
  · intro c d hcd _ r hr
    have hsame := hvalue c d hcd
    rcases List.mem_pair.mp hr with rfl | rfl
    · exact hsame
    · exact congrArg Int32.toInt hsame
  · exact fun _ => ⟨rfl, rfl, rfl⟩

theorem uses_putMain_main (g : Int32 → Int32) :
    Uses prints [.main] [.main, .condition]
      (updateCore (fun c => c.putMain (g c.main)) : Exec H Unit) := by
  apply uses_putMain
  intro c d hcd
  exact congrArg g (hcd .main (by simp))

theorem uses_setSlot {reg : RegIndex} {i : Fin sideRegisters} (h : Core.slot reg = .ok i)
    (v : Int32) : Uses prints [] [.side reg] (updateCore (Core.setSlot i v) : Exec H Unit) := by
  apply uses_updateCore
  · rintro c (_ | idx | _ | _) hr
    · rfl
    · exact Core.getSide_of_ne h (by simpa using hr) c v
    · rfl
    · rfl
  · intro c d _ _ r hr
    obtain rfl : r = .side reg := by simpa using hr
    exact (Core.getSide_setSlot h d v).trans (Core.getSide_setSlot h c v).symm
  · exact fun _ => ⟨rfl, rfl, rfl⟩

theorem uses_setSide (reg : RegIndex) (v : Int32) :
    Uses prints [] [.side reg] (setSide reg v : Exec H Unit) :=
  .check fun _ h => uses_setSlot h v

theorem uses_swapSlot {reg : RegIndex} {i : Fin sideRegisters} (h : Core.slot reg = .ok i) :
    Uses prints [.main, .side reg] [.main, .side reg]
      (updateCore (Core.swapSlot i) : Exec H Unit) := by
  apply uses_updateCore
  · rintro c (_ | idx | _ | _) hr
    · simp at hr
    · exact Core.getSide_of_ne h (by simpa using hr) c c.main
    · rfl
    · rfl
  · intro c d hcd _ r hr
    have hmain : d.main = c.main := hcd .main (by simp)
    have hside : d.getSide reg = c.getSide reg := hcd (.side reg) (by simp)
    rcases List.mem_pair.mp hr with rfl | rfl
    · rw [Core.getSide_of_slot h, Core.getSide_of_slot h] at hside
      exact Except.ok.inj hside
    · calc (d.swapSlot i).getSide reg = .ok d.main := Core.getSide_setSlot h d d.main
        _ = .ok c.main := by rw [hmain]
        _ = (c.swapSlot i).getSide reg := (Core.getSide_setSlot h c c.main).symm
  · exact fun _ => ⟨rfl, rfl, rfl⟩

theorem uses_compare (v : Int32) :
    Uses prints [.main] [.condition]
      (updateCore (fun c => c.setCondition (c.main.toInt - v.toInt)) : Exec H Unit) := by
  apply uses_updateCore
  · rintro c (_ | idx | _ | _) hr
    · rfl
    · rfl
    · simp at hr
    · rfl
  · intro c d hcd _ r hr
    have hmain : d.main = c.main := hcd .main (by simp)
    obtain rfl : r = .condition := by simpa using hr
    change d.main.toInt - v.toInt = c.main.toInt - v.toInt
    rw [hmain]
  · exact fun _ => ⟨rfl, rfl, rfl⟩

theorem uses_push (v : Int32) : Uses prints [] [.stackTop] (Exec.push v : Exec H Unit) := by
  have hcheck : Uses prints [] [] (ask fun ctx => ctx.core.checkPush : Exec H Unit) := by
    apply uses_ask
    intro c d hcd
    rw [Core.checkPush, Core.checkPush, Core.depth, Core.depth, hcd.stack, hcd.stackMax]
  apply hcheck.bind
  intro _
  apply uses_updateCore
  · rintro c (_ | idx | _ | _) hr
    · rfl
    · rfl
    · rfl
    · simp at hr
  · intro c d _ hstack r hr
    obtain rfl : r = .stackTop := by simpa using hr
    exact congrArg (Array.push · v) hstack
  · exact fun _ => ⟨rfl, rfl, rfl⟩

theorem uses_pop : Uses prints [.stackTop] [.stackTop] (Exec.pop : Exec H Int32) := by
  have htop : Uses prints [.stackTop] [] (ask fun ctx => ctx.core.top : Exec H Int32) := by
    apply uses_ask
    intro c d hcd
    rw [Core.top, Core.top, hcd.stack]
  have hpopped : Uses prints [] [.stackTop] (updateCore Core.popped : Exec H Unit) := by
    apply uses_updateCore
    · rintro c (_ | idx | _ | _) hr
      · rfl
      · rfl
      · rfl
      · simp at hr
    · intro c d _ hstack r hr
      obtain rfl : r = .stackTop := by simpa using hr
      exact congrArg Array.pop hstack
    · exact fun _ => ⟨rfl, rfl, rfl⟩
  exact htop.bind fun v => hpopped.bind fun _ => uses_pure v

theorem uses_print (hprints : prints) (f : H → H × Option IoFailure) :
    Uses prints [] [] (print f) where
  frame ctx := by
    simp only [Ends, print]
    rcases f ctx.host with ⟨host, _ | failure⟩
    · exact ⟨fun r _ => .refl _ r, rfl, rfl, rfl, fun hnot => absurd hprints hnot⟩
    · exact ⟨fun r _ => .refl _ r, rfl, rfl, rfl, fun hnot => absurd hprints hnot⟩
  same S _ c d hcd := by
    simp only [print, hcd.host hprints]
    rcases f c.host with ⟨host, _ | failure⟩
    · exact ⟨rfl, fun r hr => hcd.registers r (by simpa using hr), hcd.stack, hcd.stackMax,
        hcd.memory, fun _ => rfl⟩
    · exact ⟨rfl, hcd.registers, hcd.stack, hcd.stackMax, hcd.memory, fun _ => rfl⟩

theorem uses_syscall [Host H] (hprints : prints) (s : Syscall) :
    Uses prints [.main] [] (Exec.syscall s : Exec H Unit) := by
  have houtput : Uses prints [.main] []
      (ask fun ctx => s.output ctx.core ctx.memory : Exec H (H → H × Option IoFailure)) := by
    apply uses_ask
    intro c d hcd
    have hmain : d.core.main = c.core.main := hcd.registers .main (by simp)
    cases s with
    | printText => rw [Syscall.output, Syscall.output, hmain, hcd.memory]
    | printNumber => rw [Syscall.output, Syscall.output, hmain]
  exact houtput.bind fun f => uses_print hprints f

theorem uses_next {x : Exec H α} (hx : Uses prints R W x) :
    Uses prints R W (x >>= fun _ => pure Flow.next) :=
  (hx.bind fun _ => uses_pure Flow.next).mono (by simp) (by simp)

theorem uses_jumpIf (cond : Int → Bool) (pos : Pos) :
    Uses prints [.condition] [] (do return .jumpIf (cond (← conditionCode)) pos : Exec H Flow) :=
  uses_conditionCode.bind fun _ => uses_pure _

end

end Exec

/-! ### Every instruction -/

namespace Instr

open Exec

/-- The instructions that call the host. -/
def Prints : Instr → Prop
  | .syscall _ => True
  | _ => False

variable {H : Type} [Host H]

/-- **Instructions have the footprint that the tables give them.** -/
theorem uses_exec (i : Instr) (pos : Pos) :
    Uses i.Prints i.reads i.writes (i.exec pos : Exec H Flow) := by
  cases i with
  | nop | halt | jump dest => exact uses_pure _
  | jumpNonzero dest => exact uses_jumpIf _ dest
  | jumpZero dest => exact uses_jumpIf _ dest
  | jumpLess dest => exact uses_jumpIf _ dest
  | jumpGreater dest => exact uses_jumpIf _ dest
  | jumpLessEqual dest => exact uses_jumpIf _ dest
  | jumpGreaterEqual dest => exact uses_jumpIf _ dest
  | call dest => exact (uses_push _).bind fun _ => uses_pure _
  | ret =>
    refine .mono (uses_pop.bind fun v => .check fun dest _ => uses_pure _) ?_ ?_
    · simp [reads]
    · simp [writes]
  | set val => exact uses_next (uses_putMain fun _ _ _ => rfl)
  | setRegister reg val => exact uses_next (uses_setSide reg val)
  | swap reg => exact .check fun i h => uses_next (uses_swapSlot h)
  | increment => exact uses_next (uses_putMain_main (· + 1))
  | decrement => exact uses_next (uses_putMain_main (· - 1))
  | incrementRegister reg =>
    exact (uses_sideValue reg).bind fun v => uses_next (uses_setSide reg (v + 1))
  | decrementRegister reg =>
    exact (uses_sideValue reg).bind fun v => uses_next (uses_setSide reg (v - 1))
  | add reg =>
    refine .mono ((uses_sideValue reg).bind fun v => uses_next (uses_putMain_main (· + v))) ?_ ?_
    · simp [reads]
    · simp [writes]
  | sub reg =>
    refine .mono ((uses_sideValue reg).bind fun v => uses_next (uses_putMain_main (· - v))) ?_ ?_
    · simp [reads]
    · simp [writes]
  | div reg =>
    refine .mono ((uses_sideValue reg).bind fun divisor => .check fun _ _ =>
      uses_mainValue.bind fun dividend => (uses_setSide reg _).bind fun _ =>
        uses_next (uses_putMain (R := []) fun _ _ _ => rfl)) ?_ ?_
    · simp [reads]
    · simp [writes, or_left_comm]
  | compare reg =>
    refine .mono ((uses_sideValue reg).bind fun v => uses_next (uses_compare v)) ?_ ?_
    · simp [reads]
    · simp [writes]
  | write8 reg =>
    refine .mono ((uses_sideValue reg).bind fun v =>
      uses_mainValue.bind fun addr => uses_next (uses_store _)) ?_ ?_
    · simp [reads]
    · simp [writes]
  | store8 addr => exact uses_mainValue.bind fun v => uses_next (uses_store _)
  | store32 addr => exact uses_mainValue.bind fun v => uses_next (uses_store _)
  | load8 addr => exact (uses_load _).bind fun b => uses_next (uses_setMain _)
  | load32 addr => exact (uses_load _).bind fun v => uses_next (uses_setMain _)
  | deref8 reg =>
    exact (uses_sideValue reg).bind fun addr =>
      (uses_load _).bind fun b => uses_next (uses_setMain _)
  | deref32 reg =>
    exact (uses_sideValue reg).bind fun addr =>
      (uses_load _).bind fun v => uses_next (uses_setMain _)
  | copyCodeMemory data => exact uses_mainValue.bind fun addr => uses_next (uses_store _)
  | push => exact uses_mainValue.bind fun v => uses_next (uses_push v)
  | pop =>
    refine .mono (uses_pop.bind fun v => uses_next (uses_setMain v)) ?_ ?_
    · simp [reads]
    · simp [writes, or_comm]
  | pushRegister reg => exact (uses_sideValue reg).bind fun v => uses_next (uses_push v)
  | popRegister reg =>
    refine .check fun i h => .mono (uses_pop.bind fun v => uses_next (uses_setSlot h v)) ?_ ?_
    · simp [reads]
    · simp [writes, or_comm]
  | syscall number => exact .check fun s _ => uses_next (uses_syscall trivial s)
  | reserved op => exact uses_ask (f := fun _ => .error (.invalidOpcode op)) fun _ _ _ => rfl

/-- The two ends are the same, and where they are values the written locations agree. -/
def SameResult (i : Instr) :
    EStateM.Result Fault (Context H) Flow → EStateM.Result Fault (Context H) Flow → Prop
  | .ok flow c, .ok flow' d =>
    flow' = flow ∧ d.memory = c.memory ∧ d.host = c.host ∧ d.core.stack = c.core.stack ∧
      ∀ r ∈ i.writes, c.core.AgreeAt d.core r
  | .error fault c, .error fault' d =>
    fault' = fault ∧ d.memory = c.memory ∧ d.host = c.host ∧ d.core.stack = c.core.stack
  | _, _ => False

/-- **Reads and writes are as listed.**  An instruction, whether it succeeds or faults, leaves
alone every location that it is not listed to write, the counter and the limits.  Two cores
with the same call stack under the same limit that agree on the locations listed as read, and
may differ elsewhere, come to the same way on or the same fault, with the same memory, host
and stack, and on success they agree on every location listed as written. -/
theorem exec_within_tables (i : Instr) (pos : Pos) :
    (∀ ctx : Context H,
      Ends (i.exec pos) (fun _ => Frame i.Prints i.writes ctx)
        (fun _ => Frame i.Prints i.writes ctx) ctx) ∧
      ∀ (c d : Core) (memory : Memory) (host : H), d.stack = c.stack → d.stackMax = c.stackMax →
        (∀ r ∈ i.reads, c.AgreeAt d r) →
        i.SameResult (i.exec pos ⟨c, memory, host⟩) (i.exec pos ⟨d, memory, host⟩) := by
  refine ⟨(uses_exec i pos).frame, ?_⟩
  intro c d memory host hstack hmax hreads
  have halike : Alike i.Prints (· ∈ i.reads) ⟨c, memory, host⟩ ⟨d, memory, host⟩ :=
    ⟨hreads, hstack, hmax, rfl, fun _ => rfl⟩
  -- a host that is not called is the one that both began with
  have hhost : ∀ c' d' : Context H, Frame i.Prints i.writes ⟨c, memory, host⟩ c' →
      Frame i.Prints i.writes ⟨d, memory, host⟩ d' → (i.Prints → d'.host = c'.host) →
      d'.host = c'.host := by
    intro c' d' hc hd hprints
    by_cases h : i.Prints
    · exact hprints h
    · exact (hd.host h).trans (hc.host h).symm
  rcases (uses_exec i pos).ends_cases (fun _ hr => hr) halike with
    ⟨flow, c', d', hexec, hexec', hends, hc, hd⟩ | ⟨fault, c', d', hexec, hexec', hends, hc, hd⟩
  · rw [hexec, hexec']
    exact ⟨rfl, hends.memory, hhost c' d' hc hd hends.host, hends.stack,
      fun r hr => hends.registers r (.inr hr)⟩
  · rw [hexec, hexec']
    exact ⟨rfl, hends.memory, hhost c' d' hc hd hends.host, hends.stack⟩

/-- Two cores that differ wherever a division does not look come to the same quotient, remainder
and condition code, and each keeps its other registers. -/
theorem exec_within_tables_sample :
    (∀ r ∈ (Instr.div 1).reads,
      Core.AgreeAt { main := 7, side := #v[5, 2, 0, 0] }
        { main := 7, side := #v[1, 2, 3, 4], condition := 9, steps := 6 } r) ∧
      (Instr.div 1).SameResult
        ((Instr.div 1).exec 0
          ⟨{ main := 7, side := #v[5, 2, 0, 0] }, .ofSize 0 #[], ({} : Writer)⟩)
        ((Instr.div 1).exec 0
          ⟨{ main := 7, side := #v[1, 2, 3, 4], condition := 9, steps := 6 }, .ofSize 0 #[], {}⟩) ∧
      (Instr.div 1).exec 0
          ⟨{ main := 7, side := #v[1, 2, 3, 4], condition := 9, steps := 6 }, .ofSize 0 #[],
            ({} : Writer)⟩ =
        .ok .next
          ⟨{ main := 3, side := #v[1, 1, 3, 4], condition := 3, steps := 6 }, .ofSize 0 #[], {}⟩ := by
  have hreads : ∀ r ∈ (Instr.div 1).reads,
      Core.AgreeAt { main := 7, side := #v[5, 2, 0, 0] }
        { main := 7, side := #v[1, 2, 3, 4], condition := 9, steps := 6 } r := by
    decide
  exact ⟨hreads, (exec_within_tables (.div 1) 0).2 _ _ _ _ rfl rfl hreads, rfl⟩

end Instr

end Accumulator
