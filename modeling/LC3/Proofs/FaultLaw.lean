import LC3.Proofs.Calls
import LC3.Proofs.Careful
import LC3.Proofs.IsaStep

/-!
# What a fault leaves behind

A step that fails halts the machine and has changed next to nothing: the program counter has moved
on, a trap has left its return address, and the two cells of the keyboard may have been set by polls
that succeeded before. The fault is the machine's own, or the console's, passed on as it came from
the call at which the console failed behind all those that it had answered.
-/

namespace LC3

open MachineM

variable {σ : Type} [Console σ]

/-! ## Any console -/

omit [Console σ] in
/-- The registers are as they were, and so is every cell that is not the keyboard's. -/
structure Spared (s t : System σ) : Prop where
  registers : t.machine.registers = s.machine.registers
  memory : ∀ a, a ≠ Machine.keyboardStatus → a ≠ Machine.keyboardData →
    t.machine.memory.read a = s.machine.memory.read a

/-- Between `s` and `t` everything was spared, and the console answered every call. -/
structure Asked (s t : System σ) : Prop extends Spared s t where
  reached : ∃ made, Reached s.channel made t.channel

/-- A fault of the console that spared everything. -/
structure SparingFault (s : System σ) (f : Fault) (t : System σ) : Prop where
  spared : Spared s t
  raised : ∃ made, ConsoleFails s.channel f t.channel made

omit [Console σ] in
theorem spared_of_machine {s t : System σ} (h : t.machine = s.machine) : Spared s t :=
  ⟨by rw [h], fun _ _ _ => by rw [h]⟩

omit [Console σ] in
theorem Spared.trans {s t u : System σ} (h : Spared s t) (h' : Spared t u) : Spared s u :=
  ⟨h'.registers.trans h.registers, fun a ha ha' => (h'.memory a ha ha').trans (h.memory a ha ha')⟩

theorem Asked.trans {s t u : System σ} (h : Asked s t) (h' : Asked t u) : Asked s u := by
  obtain ⟨made, hmade⟩ := h.reached
  obtain ⟨made', hmade'⟩ := h'.reached
  exact ⟨h.toSpared.trans h'.toSpared, made ++ made', hmade.trans hmade'⟩

theorem SparingFault.behind {s t u : System σ} {f : Fault} (h : Asked s t)
    (h' : SparingFault t f u) : SparingFault s f u := by
  obtain ⟨made, hmade⟩ := h.reached
  obtain ⟨made', hfails⟩ := h'.raised
  exact ⟨h.toSpared.trans h'.spared, made ++ made', hmade.fails hfails⟩

omit [Console σ] in
theorem read_polled (m : Memory) (key : Option Int) {a : Word} (ha : a ≠ Machine.keyboardStatus)
    (ha' : a ≠ Machine.keyboardData) : (polled m key).read a = m.read a := by
  cases key with
  | none => exact Memory.read_write_of_ne _ _ ha.symm
  | some key =>
    exact (Memory.read_write_of_ne _ _ ha'.symm).trans (Memory.read_write_of_ne _ _ ha.symm)

theorem Operates.careful {α : Type} {operation : σ → Reply σ α} {call : Except Fault α → Call}
    (h : Operates operation call) :
    Careful Asked (OnFault SparingFault) (atChannel (Channel.exchange operation call)) := by
  refine ⟨fun s a t ht => ?_, fun s e t ht => ?_⟩
  · obtain ⟨hanswer, hmachine⟩ := atChannel_eq_ok.1 ht
    exact ⟨spared_of_machine hmachine, _, (h.answered _ _ _ hanswer).reached⟩
  · cases e with
    | fault f =>
      obtain ⟨hfault, hmachine⟩ := atChannel_eq_error.1 ht
      exact ⟨spared_of_machine hmachine, _, (h.refused _ _ _ hfault).fails⟩
    | signal => trivial
    | outOfFuel => trivial

theorem careful_readWord (a : Word) :
    Careful (Asked : System σ → System σ → Prop) (OnFault SparingFault) (readWord a) := by
  refine ⟨fun s w t h => ?_, fun s e t h => ?_⟩
  · have hread := readWord_readsTo a s
    rw [h] at hread
    cases hread with
    | cell ha => exact ⟨spared_of_machine rfl, _, .here⟩
    | keyboard ha hpoll => exact ⟨⟨rfl, fun _ => read_polled _ _⟩, _, (Answered.poll hpoll).reached⟩
  · have hread := readWord_readsTo a s
    rw [h] at hread
    cases hread with
    | failed ha hpoll => exact ⟨spared_of_machine rfl, _, (Refused.poll hpoll).fails⟩

theorem carefulConsole :
    CarefulConsole (Asked : System σ → System σ → Prop) (OnFault SparingFault) where
  refl _ := ⟨spared_of_machine rfl, _, .here⟩
  trans := Asked.trans
  stop {_ _ e _} h h' := by
    cases e with
    | fault f => exact h'.behind h
    | signal => trivial
    | outOfFuel => trivial
  readWord := careful_readWord
  write code := (operates_write code).careful
  flush := operates_flush.careful

/-! ## The law -/

/-- What is wrong with the instruction `w` at `a` itself: its opcode has no meaning, or it asks for
a service that there is not. -/
inductive OwnFault (a w : Word) : Fault → Prop where
  | illegal (h : Isa.opcode w = 0x8 ∨ Isa.opcode w = 0xd) :
    OwnFault a w (.illegalOpcode a.toNat (Isa.opcode w).toNat)
  | unknown (h : Isa.opcode w = 0xf)
      (hvector : (Isa.trapVector w).toNat < 0x20 ∨ 0x25 < (Isa.trapVector w).toNat) :
    OwnFault a w (.unknownTrap a.toNat (Isa.trapVector w).toNat)

/-- Why the instruction `w`, fetched from `a`, failed with `f`, where the channel was `c` behind the
fetch and is `d` now: the console failed at one of the calls of the instruction, or the machine did.
-/
inductive Cause (a w : Word) (c : Channel σ) (f : Fault) (d : Channel σ) : Prop where
  | console {made : List Call} (h : ConsoleFails c f d made)
  | own (h : OwnFault a w f)

/-- What an instruction word is decoded to. -/
inductive Kind (w : Word) : Instruction → Prop where
  | trap (h : Isa.opcode w = 0xf) : Kind w (.trap (Isa.trapVector w))
  | illegal {o : Opcode} (h : Isa.opcode w = 0x8 ∨ Isa.opcode w = 0xd)
      (hcode : Isa.opcode w = o.code) : Kind w (.illegal o)
  | plain {i : Instruction} (h : Isa.opcode w ≠ 0x8 ∧ Isa.opcode w ≠ 0xd ∧ Isa.opcode w ≠ 0xf)
      (htrap : ∀ vector, i ≠ .trap vector) (hillegal : ∀ o, i ≠ .illegal o) : Kind w i

theorem kind_decode (w : Word) : Kind w (.decode w) := by
  obtain ⟨o, ho⟩ : ∃ o, Opcode.ofCode (Field.code w) = o := ⟨_, rfl⟩
  have hcode := opcode_eq ho
  simp only [Instruction.decode, ho]
  cases o with
  | trap =>
    rw [Field.vector_eq]
    exact .trap hcode
  | rti => exact .illegal (.inl hcode) hcode
  | res => exact .illegal (.inr hcode) hcode
  | jsr =>
    dsimp only
    split
    · exact .plain (by rw [hcode]; decide) (fun _ h => by cases h) fun _ h => by cases h
    · exact .plain (by rw [hcode]; decide) (fun _ h => by cases h) fun _ h => by cases h
  | _ => exact .plain (by rw [hcode]; decide) (fun _ h => by cases h) fun _ h => by cases h

theorem ofVector?_eq_none_iff (n : Nat) : Service.ofVector? n = none ↔ n < 0x20 ∨ 0x25 < n := by
  constructor
  · intro h
    by_contra hrange
    have hcases : n = 0x20 ∨ n = 0x21 ∨ n = 0x22 ∨ n = 0x23 ∨ n = 0x24 ∨ n = 0x25 := by omega
    rcases hcases with rfl | rfl | rfl | rfl | rfl | rfl <;> cases h
  · intro hrange
    rcases hservice : Service.ofVector? n with _ | service
    · rfl
    · have hvector := Service.vector_of_ofVector? hservice
      cases service <;> simp only [Service.vector] at hvector <;> omega

/-- The registers behind the instruction word `w`, as far as they are changed before anything can
fail. -/
def linkage (w : Word) (rs : Registers) : Registers :=
  if Isa.opcode w = 0xf then rs.set 7 rs.pc else rs

section Linkage

variable (w : Word) (rs : Registers)

@[simp]
theorem pc_linkage : (linkage w rs).pc = rs.pc := by
  unfold linkage
  split <;> rfl

@[simp]
theorem condition_linkage : (linkage w rs).condition = rs.condition := by
  unfold linkage
  split <;> rfl

@[simp]
theorem conditionWord_linkage : (linkage w rs).conditionWord = rs.conditionWord := by
  unfold linkage
  split <;> rfl

theorem get_linkage_of_ne {r : Register} (hr : r ≠ 7) : (linkage w rs).get r = rs.get r := by
  unfold linkage
  split
  · rw [Registers.get_set, if_neg hr.symm]
  · rfl

theorem get_linkage_seven :
    (linkage w rs).get 7 = if Isa.opcode w = 0xf then rs.pc else rs.get 7 := by
  unfold linkage
  split
  · exact Registers.get_set_self ..
  · rfl

end Linkage

/-- An instruction that fails has spared everything, apart from the link of a trap. -/
theorem perform_fault {fuel : Nat} {a w : Word} {s t : System σ} {f : Fault}
    (h : perform fuel a (.decode w) s = .error (.fault f) t) :
    Spared { s with machine.registers := linkage w s.machine.registers } t ∧
      Cause a w s.channel f t.channel := by
  have hkind := kind_decode w
  generalize Instruction.decode w = i at h hkind
  unfold linkage
  cases hkind with
  | trap hop =>
    -- A trap has linked before its service is called, so the service starts from other registers.
    rw [if_pos hop]
    have hcall := perform_trap_eq_error.1 h
    unfold callService at hcall
    rcases hservice : Service.ofVector? (Isa.trapVector w).toNat with _ | service
    · rw [hservice] at hcall
      cases hcall
      exact ⟨spared_of_machine rfl, .own (.unknown hop ((ofVector?_eq_none_iff _).1 hservice))⟩
    · rw [hservice] at hcall
      obtain ⟨hspared, made, hfails⟩ := carefulConsole.serve (fun _ => operates_read.careful)
        (carefulConsole.putWords fun _ => trivial) (carefulConsole.putBytes fun _ => trivial)
        _ _ _ hcall
      exact ⟨hspared, .console hfails⟩
  | @illegal o hop hcode =>
    have hnot : ¬Isa.opcode w = 0xf := by rcases hop with hop | hop <;> rw [hop] <;> decide
    rw [if_neg hnot]
    cases h
    rw [← hcode]
    exact ⟨spared_of_machine rfl, .own (.illegal hop)⟩
  | plain hop htrap hillegal =>
    rw [if_neg hop.2.2]
    obtain ⟨hspared, made, hfails⟩ := carefulConsole.perform a htrap hillegal _ _ _ h
    exact ⟨hspared, .console hfails⟩

/-- Where a fault of a step came from, and how far the step had got. -/
inductive Origin (s : System σ) (f : Fault) (t : System σ) : Prop where
  /-- The keyboard failed before the instruction was fetched. -/
  | fetch (hpc : s.machine.registers.pc = 0xfe00)
      (hpoll : Channel.poll s.channel = .error f t.channel)
      (pc : t.machine.registers.pc = s.machine.registers.pc)
      (link : t.machine.registers.get 7 = s.machine.registers.get 7)
  | instruction {w : Word} {u : System σ} (fetched : readWord s.machine.registers.pc s = .ok w u)
      (pc : t.machine.registers.pc = s.machine.registers.pc + 1)
      (link : t.machine.registers.get 7 =
        if Isa.opcode w = 0xf then s.machine.registers.pc + 1 else s.machine.registers.get 7)
      (cause : Cause s.machine.registers.pc w u.channel f t.channel)

/-- What a step from `s` that fails with `f` leaves behind. -/
structure FaultLeaves (s : System σ) (f : Fault) (t : System σ) : Prop where
  halted : t.machine.state = .halted
  general : ∀ r, r ≠ 7 → t.machine.registers.get r = s.machine.registers.get r
  condition : t.machine.registers.condition = s.machine.registers.condition
  conditionWord : t.machine.registers.conditionWord = s.machine.registers.conditionWord
  memory : ∀ a, a ≠ 0xfe00 → a ≠ 0xfe02 → t.machine.memory.read a = s.machine.memory.read a
  origin : Origin s f t

theorem faultLeaves_of_step {fuel : Nat} {s t : System σ} {f : Fault}
    (hrun : s.machine.state = .running) (h : step fuel s = .error (.fault f) t) :
    FaultLeaves s f t := by
  obtain ⟨u, hcycle, rfl⟩ := cycle_of_step_fault hrun h
  have hreads := readWord_readsTo s.machine.registers.pc s
  rcases hread : readWord s.machine.registers.pc s with ⟨w, v⟩ | ⟨e, v⟩
  · rw [cycle_of_fetched hread] at hcycle
    have hfetch := (careful_readWord _).kept _ _ _ hread
    obtain ⟨hspared, hcause⟩ := perform_fault hcycle
    have hjumped : (fetchedFrom s v).machine.registers =
        s.machine.registers.jump (s.machine.registers.pc + 1) :=
      congrArg (Registers.jump · _) hfetch.registers
    have hregisters : u.machine.registers =
        linkage w (s.machine.registers.jump (s.machine.registers.pc + 1)) :=
      hspared.registers.trans (congrArg (linkage w) hjumped)
    refine ⟨rfl, fun r hr => ?_, ?_, ?_, fun a ha ha' => ?_, .instruction hread ?_ ?_ hcause⟩
    · show u.machine.registers.get r = _
      rw [hregisters, get_linkage_of_ne w _ hr, Registers.get_jump]
    · show u.machine.registers.condition = _
      rw [hregisters, condition_linkage]
      rfl
    · show u.machine.registers.conditionWord = _
      rw [hregisters, conditionWord_linkage]
      rfl
    · exact (hspared.memory a ha ha').trans (hfetch.memory a ha ha')
    · show u.machine.registers.pc = _
      rw [hregisters, pc_linkage]
      rfl
    · show u.machine.registers.get 7 = _
      rw [hregisters, get_linkage_seven, Registers.get_jump]
      rfl
  · rw [cycle_of_unfetched hread] at hcycle
    rw [hread] at hreads
    cases hreads with
    | failed hpc hpoll =>
      cases hcycle
      exact ⟨rfl, fun _ _ => rfl, rfl, rfl, fun _ _ _ => rfl, .fetch hpc hpoll rfl rfl⟩

end LC3
