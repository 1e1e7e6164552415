import LC3.Console.Queue
import LC3.Proofs.Computation
import LC3.Proofs.Isa

/-!
# A step is a step of the reference

`Isa.view` shows a machine as a state of the reference in `LC3.Proofs.Isa`. A step of a running
machine, on any console, leads to what the reference comes to from there, as long as the keyboard
answers and the instruction is neither TRAP nor RTI nor reserved.
-/

namespace LC3

open MachineM

/-! ## Fields -/

theorem toInt_signExtend_extractLsb (n : Nat) (hn : 0 < n ∧ n ≤ 16) (w : Word) :
    ((w.extractLsb' 0 n).signExtend 16).toInt = Int.bmod w.toNat (1 <<< n) := by
  rw [BitVec.toInt_signExtend_of_le hn.2, BitVec.toInt_eq_toNat_bmod, BitVec.extractLsb'_toNat,
    Nat.shiftRight_zero, Int.natCast_emod, Nat.one_shiftLeft]
  exact Int.emod_bmod ..

theorem widened_eq {n weight : Nat} (small : 0 < weight ∧ weight ≤ 0x8000) (hn : 0 < n ∧ n ≤ 16)
    (hw : 2 * weight = 1 <<< n) (w : Word) :
    Field.widened weight small w = (w.extractLsb' 0 n).signExtend 16 := by
  apply BitVec.eq_of_toInt_eq
  rw [Field.toInt_widened, toInt_signExtend_extractLsb n hn, hw]

theorem immediate_eq (w : Word) : Field.immediate w = Isa.imm5 w :=
  widened_eq (by decide) (by decide) rfl w

theorem baseOffset_eq (w : Word) : Field.baseOffset w = Isa.offset6 w :=
  widened_eq (by decide) (by decide) rfl w

theorem pcOffset_eq (w : Word) : Field.pcOffset w = Isa.offset9 w :=
  widened_eq (by decide) (by decide) rfl w

theorem longOffset_eq (w : Word) : Field.longOffset w = Isa.offset11 w :=
  widened_eq (by decide) (by decide) rfl w

theorem target_eq (w : Word) : Field.target w = Isa.dr w := Field.bits3_eq 9 w

theorem mask_eq (w : Word) : Field.mask w = Isa.dr w := Field.bits3_eq 9 w

theorem left_eq (w : Word) : Field.left w = Isa.sr1 w := Field.bits3_eq 6 w

theorem base_eq (w : Word) : Field.base w = Isa.sr1 w := Field.bits3_eq 6 w

theorem right_eq (w : Word) : Field.right w = Isa.sr2 w := Field.bits3_eq 0 w

/-! ## Views -/

namespace Isa

/-- A machine as a state of the reference. -/
def view (m : Machine) : State where
  memory := m.memory.read
  general := m.registers.get
  pc := m.registers.pc
  nzp := m.registers.condition.bit

end Isa

theorem bit_ofWord (w : Word) : (Condition.ofWord w).bit = Isa.signClass w := by
  unfold Condition.ofWord Isa.signClass
  by_cases hz : w = 0
  · subst hz
    rfl
  · have hne : w.toInt ≠ 0 := fun h => hz (BitVec.toInt_inj.1 h)
    rw [if_neg hz, BitVec.msb_eq_toInt, if_neg hne]
    by_cases hn : w.toInt < 0
    · simp only [hn, decide_true, if_true, Condition.bit]
    · simp only [hn, decide_false, if_false, Bool.false_eq_true, Condition.bit]

namespace Isa

theorem read_memory_write (m : Memory) (a w : Word) :
    (m.write a w).read = Function.update m.read a w := by
  funext b
  rw [Memory.read_write, Function.update_apply]
  simp only [eq_comm]

theorem get_registers_set (rs : Registers) (r : Register) (w : Word) :
    (rs.set r w).get = Function.update rs.get r w := by
  funext q
  rw [Registers.get_set, Function.update_apply]
  simp only [eq_comm]

theorem view_write (m : Machine) (a w : Word) :
    view { m with memory := m.memory.write a w } = (view m).store a w := by
  simp only [view, State.store, read_memory_write]

theorem view_set (m : Machine) (r : Register) (w : Word) :
    view { m with registers := m.registers.set r w } = (view m).set r w := by
  simp only [view, State.set, get_registers_set, Registers.pc_set, Registers.condition_set]

theorem view_accept (m : Machine) (r : Register) (w : Word) :
    view { m with registers := m.registers.accept r w } = (view m).result r w := by
  have h := Registers.condition_accept m.registers r w
  simp only [view, State.result, State.set, h, bit_ofWord]
  rw [← get_registers_set]
  rfl

theorem view_jump (m : Machine) (target : Word) :
    view { m with registers := m.registers.jump target } = { view m with pc := target } := rfl

end Isa

/-! ## Reads -/

/-- What a step has come to so far: `m` looks like `t`, and is otherwise what `before` was. -/
structure Isa.Shows (before m : Machine) (t : Isa.State) : Prop where
  view : Isa.view m = t
  state : m.state = before.state
  loaded : m.imageLoaded = before.imageLoaded
  coherent : before.registers.Coherent → m.registers.Coherent

namespace Isa.Shows

variable {before m : Machine} {t : Isa.State}

theorem refl (m : Machine) : Isa.Shows m m (Isa.view m) := ⟨rfl, rfl, rfl, id⟩

theorem write (hm : Isa.Shows before m t) (a w : Word) :
    Isa.Shows before { m with memory := m.memory.write a w } (t.store a w) :=
  ⟨by rw [Isa.view_write, hm.view], hm.state, hm.loaded, hm.coherent⟩

theorem set (hm : Isa.Shows before m t) (r : Register) (w : Word) :
    Isa.Shows before { m with registers := m.registers.set r w } (t.set r w) :=
  ⟨by rw [Isa.view_set, hm.view], hm.state, hm.loaded, fun h => (hm.coherent h).set r w⟩

theorem accept (hm : Isa.Shows before m t) (r : Register) (w : Word) :
    Isa.Shows before { m with registers := m.registers.accept r w } (t.result r w) :=
  ⟨by rw [Isa.view_accept, hm.view], hm.state, hm.loaded, fun _ => Registers.coherent_judge _ r⟩

theorem jump (hm : Isa.Shows before m t) (target : Word) :
    Isa.Shows before { m with registers := m.registers.jump target } { t with pc := target } :=
  ⟨by rw [Isa.view_jump, hm.view], hm.state, hm.loaded, fun h => (hm.coherent h).jump target⟩

end Isa.Shows

variable {σ : Type} [Console σ]

/-- A read of the reference that gets its answers is a read of the machine. -/
theorem readWord_isa {before m : Machine} {c c' : Channel σ} {t t' : Isa.State} {a w : Word}
    (hm : Isa.Shows before m t) (h : Isa.read t a c = .ok (w, t') c') :
    ∃ m', readWord a ⟨m, c⟩ = .ok w ⟨m', c'⟩ ∧ Isa.Shows before m' t' := by
  unfold Isa.read at h
  by_cases ha : a = 0xfe00
  · subst ha
    rw [if_pos rfl] at h
    obtain ⟨key, u, hpoll, hrest⟩ := bind_eq_ok.1 h
    have hread := readWord_status_of_ok (m := m) hpoll
    cases key with
    | some key =>
      cases hrest
      have hm' := (hm.write 0xfe00 0x8000).write 0xfe02 (BitVec.ofInt 16 key)
      refine ⟨_, hread.trans ?_, hm'⟩
      rw [← hm'.view]
      rfl
    | none =>
      cases hrest
      have hm' := hm.write 0xfe00 0
      refine ⟨_, hread.trans ?_, hm'⟩
      rw [← hm'.view]
      rfl
  · rw [if_neg ha] at h
    cases h
    refine ⟨m, ?_, hm⟩
    rw [readWord_of_ne ha, ← hm.view]
    rfl

/-- A read of the reference that fails is a read of the machine that fails. -/
theorem readWord_isa_error {m : Machine} {c d : Channel σ} {t : Isa.State} {a : Word} {f : Fault}
    (h : Isa.read t a c = .error f d) : readWord a ⟨m, c⟩ = .error (.fault f) ⟨m, d⟩ := by
  unfold Isa.read at h
  by_cases ha : a = 0xfe00
  · subst ha
    rw [if_pos rfl] at h
    rcases bind_eq_error.1 h with hpoll | ⟨key, u, -, hrest⟩
    · exact readWord_status_of_error hpoll
    · cases key <;> cases hrest
  · rw [if_neg ha] at h
    cases h

/-! ## Instructions -/

theorem opcode_eq {w : Word} {o : Opcode} (ho : Opcode.ofCode (Field.code w) = o) :
    Isa.opcode w = o.code := by
  rw [← ho, Opcode.code_ofCode, Field.code_eq]
  rfl

omit [Console σ] in
theorem operand_isa (w : Word) (s : System σ) :
    operand (Instruction.operand w) s =
      .ok (if w.getLsbD 5 then Isa.imm5 w else (Isa.view s.machine).general (Isa.sr2 w)) s := by
  unfold Instruction.operand Field.hasImmediate
  rw [immediate_eq, right_eq]
  split <;> rfl

theorem matchedBy_iff (d : Condition) (mask : BitVec 3) :
    d.matchedBy mask = true ↔ ¬mask &&& d.bit = 0 := by
  unfold Condition.matchedBy
  exact bne_iff_ne

theorem branch_of_matched {fuel : Nat} {address offset : Word} {mask : BitVec 3} {s : System σ}
    (h : s.machine.registers.condition.matchedBy mask = true) :
    perform fuel address (.branch mask offset) s =
      (do jump (← relative offset) : MachineM σ Unit) s :=
  congrFun (if_pos h) s

theorem branch_of_not_matched {fuel : Nat} {address offset : Word} {mask : BitVec 3}
    {s : System σ} (h : ¬s.machine.registers.condition.matchedBy mask = true) :
    perform fuel address (.branch mask offset) s = .ok () s :=
  congrFun (if_neg h) s

/-- An instruction of the reference that gets its answers is an instruction of the machine. -/
theorem perform_isa {before m : Machine} {c c' : Channel σ} {t t' : Isa.State} {w : Word}
    (fuel : Nat) (address : Word) (hm : Isa.Shows before m t)
    (hop : Isa.opcode w ≠ 0x8 ∧ Isa.opcode w ≠ 0xd ∧ Isa.opcode w ≠ 0xf)
    (h : Isa.execute w t c = .ok t' c') :
    ∃ m', perform fuel address (.decode w) ⟨m, c⟩ = .ok () ⟨m', c'⟩ ∧ Isa.Shows before m' t' := by
  obtain rfl := hm.view
  obtain ⟨o, ho⟩ : ∃ o, Opcode.ofCode (Field.code w) = o := ⟨_, rfl⟩
  have hcode := opcode_eq ho
  unfold Isa.execute at h
  simp only [hcode] at h hop
  simp only [Instruction.decode, ho, pcOffset_eq, baseOffset_eq, longOffset_eq, target_eq, mask_eq,
    left_eq, base_eq]
  cases o with
  | br =>
    cases h
    by_cases hb : Isa.dr w &&& (Isa.view m).nzp = 0
    · rw [if_pos hb]
      exact ⟨m, branch_of_not_matched fun h => (matchedBy_iff _ _).1 h hb, hm⟩
    · rw [if_neg hb]
      exact ⟨_, branch_of_matched ((matchedBy_iff _ _).2 hb), hm.jump _⟩
  | add =>
    cases h
    exact ⟨_, bind_of_ok (operand_isa w ⟨m, c⟩), hm.accept _ _⟩
  | ld =>
    obtain ⟨⟨datum, u⟩, d, hread, hrest⟩ := bind_eq_ok.1 h
    cases hrest
    obtain ⟨m', hm', hu⟩ := readWord_isa hm hread
    exact ⟨_, bind_of_ok hm', hu.accept _ _⟩
  | st =>
    cases h
    exact ⟨_, rfl, hm.write _ _⟩
  | jsr =>
    cases h
    unfold Field.hasLongOffset
    cases hlong : w.getLsbD 11 with
    | true => exact ⟨_, rfl, (hm.set 7 _).jump _⟩
    | false => exact ⟨_, rfl, (hm.set 7 _).jump _⟩
  | and =>
    cases h
    exact ⟨_, bind_of_ok (operand_isa w ⟨m, c⟩), hm.accept _ _⟩
  | ldr =>
    obtain ⟨⟨datum, u⟩, d, hread, hrest⟩ := bind_eq_ok.1 h
    cases hrest
    obtain ⟨m', hm', hu⟩ := readWord_isa hm hread
    exact ⟨_, bind_of_ok hm', hu.accept _ _⟩
  | str =>
    cases h
    exact ⟨_, rfl, hm.write _ _⟩
  | rti => exact absurd rfl hop.1
  | not =>
    cases h
    exact ⟨_, rfl, hm.accept _ _⟩
  | ldi =>
    obtain ⟨⟨pointer, u⟩, d, hread, hrest⟩ := bind_eq_ok.1 h
    obtain ⟨⟨datum, v⟩, e, hread', hrest'⟩ := bind_eq_ok.1 hrest
    cases hrest'
    obtain ⟨m', hm', hu⟩ := readWord_isa hm hread
    obtain ⟨m'', hm'', hv⟩ := readWord_isa hu hread'
    exact ⟨_, (bind_of_ok hm').trans (bind_of_ok hm''), hv.accept _ _⟩
  | sti =>
    obtain ⟨⟨pointer, u⟩, d, hread, hrest⟩ := bind_eq_ok.1 h
    cases hrest
    obtain ⟨m', hm', hu⟩ := readWord_isa hm hread
    obtain rfl := hu.view
    exact ⟨_, bind_of_ok hm', hu.write _ _⟩
  | jmp =>
    cases h
    exact ⟨_, rfl, hm.jump _⟩
  | res => exact absurd rfl hop.2.1
  | lea =>
    cases h
    exact ⟨_, rfl, hm.accept _ _⟩
  | trap => exact absurd rfl hop.2.2

/-- An instruction of the reference that fails is an instruction of the machine that fails. Only the
four that read memory can. -/
theorem perform_isa_error {m : Machine} {c d : Channel σ} {w : Word} {f : Fault} (fuel : Nat)
    (address : Word) (h : Isa.execute w (Isa.view m) c = .error f d) :
    ∃ m', perform fuel address (.decode w) ⟨m, c⟩ = .error (.fault f) ⟨m', d⟩ := by
  obtain ⟨o, ho⟩ : ∃ o, Opcode.ofCode (Field.code w) = o := ⟨_, rfl⟩
  have hcode := opcode_eq ho
  unfold Isa.execute at h
  simp only [hcode] at h
  simp only [Instruction.decode, ho, pcOffset_eq, baseOffset_eq, target_eq, base_eq]
  cases o with
  | ld =>
    rcases bind_eq_error.1 h with hread | ⟨⟨datum, u⟩, e, -, hrest⟩
    · exact ⟨m, bind_of_error (x := readWord _) (readWord_isa_error hread)⟩
    · cases hrest
  | ldr =>
    rcases bind_eq_error.1 h with hread | ⟨⟨datum, u⟩, e, -, hrest⟩
    · exact ⟨m, bind_of_error (x := readWord _) (readWord_isa_error hread)⟩
    · cases hrest
  | ldi =>
    rcases bind_eq_error.1 h with hread | ⟨⟨pointer, u⟩, e, hread, hrest⟩
    · exact ⟨m, bind_of_error (x := readWord _) (readWord_isa_error hread)⟩
    · obtain ⟨m', hm', -⟩ := readWord_isa (Isa.Shows.refl m) hread
      rcases bind_eq_error.1 hrest with hread' | ⟨⟨datum, v⟩, e', -, hrest'⟩
      · have hfailed : readWord pointer ⟨m', e⟩ = .error (.fault f) ⟨m', d⟩ :=
          readWord_isa_error hread'
        exact ⟨m', (bind_of_ok (x := readWord _) hm').trans (bind_of_error hfailed)⟩
      · cases hrest'
  | sti =>
    rcases bind_eq_error.1 h with hread | ⟨⟨pointer, u⟩, e, -, hrest⟩
    · exact ⟨m, bind_of_error (x := readWord _) (readWord_isa_error hread)⟩
    · cases hrest
  | _ => cases h

/-- **A step is a step of the instruction set.** From a running machine on any console, if the
keyboard answers every poll and the word fetched is neither a trap nor one of the two opcodes
without a meaning, a step leads to exactly the state that the reference comes to: the same memory,
registers, program counter and condition, the latter in both places, and a channel that has seen the
same polls and nothing else. The machine goes on running. -/
theorem step_refines_isa (fuel : Nat) (s : System σ) (hrun : s.machine.state = .running)
    {w : Word} {t t' : Isa.State} {c c' : Channel σ}
    (hfetch : Isa.fetch (Isa.view s.machine) s.channel = .ok (w, t) c)
    (hop : Isa.opcode w ≠ 0x8 ∧ Isa.opcode w ≠ 0xd ∧ Isa.opcode w ≠ 0xf)
    (hexec : Isa.execute w t c = .ok t' c') :
    ∃ m, step fuel s = .ok () ⟨m, c'⟩ ∧ Isa.view m = t' ∧ m.state = .running ∧
      m.imageLoaded = s.machine.imageLoaded ∧
      (s.machine.registers.Coherent → m.registers.Coherent) := by
  obtain ⟨⟨_, u⟩, d, hread, hrest⟩ := bind_eq_ok.1 hfetch
  cases hrest
  obtain ⟨m₁, hm₁, hu⟩ := readWord_isa (Isa.Shows.refl s.machine) hread
  obtain ⟨m₂, hm₂, hv⟩ := perform_isa fuel s.machine.registers.pc (hu.jump _) hop hexec
  have hcycle : cycle fuel s = .ok () ⟨m₂, c'⟩ := (bind_of_ok hm₁).trans hm₂
  exact ⟨m₂, step_of_ok hrun hcycle, hv.view, hv.state.trans hrun, hv.loaded, hv.coherent⟩

/-- A machine that is about to execute `LDI R1, -2`, where the pointer is read from the keyboard's
status register, and a console on which a key waits. -/
def pointerAtKeyboard : System Queue where
  machine := { memory := Memory.blank.write 0xfe01 0xa3fe, registers := .initial 0xfe01 }
  channel := { device := { waiting := [0x41] } }

theorem step_refines_isa_pointerAtKeyboard :
    ∃ m, step 0 pointerAtKeyboard =
        .ok () ⟨m, { device := {}, journal := #[.call (.poll (.ok (some 0x41)))] }⟩ ∧
      m.registers.pc = 0xfe02 ∧ m.memory.read 0xfe00 = 0x8000 ∧ m.memory.read 0xfe02 = 0x41 ∧
      m.state = .running := by
  have hword : pointerAtKeyboard.machine.memory.read 0xfe01 = 0xa3fe := Memory.read_write_self ..
  have hfetch : Isa.fetch (Isa.view pointerAtKeyboard.machine) pointerAtKeyboard.channel =
      .ok (0xa3fe, { Isa.view pointerAtKeyboard.machine with pc := 0xfe02 })
        pointerAtKeyboard.channel := by
    rw [← hword]
    rfl
  obtain ⟨m, hm, hv, hs, -⟩ := step_refines_isa 0 pointerAtKeyboard rfl hfetch (by decide) rfl
  refine ⟨m, hm, congrArg Isa.State.pc hv, ?_, ?_, hs⟩
  · exact congrFun (congrArg Isa.State.memory hv) 0xfe00
  · exact congrFun (congrArg Isa.State.memory hv) 0xfe02

end LC3
