import LC3.Console.Queue
import LC3.Proofs.FaultLaw

/-!
# Faults on a queue

A queue takes every byte and answers every poll. So a step on a queue fails for three reasons only,
all of which can be told from the instruction and from what is left to read: an opcode without a
meaning, a trap without a service, and a service that waits for a key when there is none.
-/

namespace LC3

open MachineM

variable {fuel : Nat} {s : System Queue} {f : Fault}

/-! ## What does not fail -/

theorem Queue.answer_poll (q : Queue) : ∃ key, (Console.poll q).answer = .ok key := by
  obtain ⟨waiting, flushed, pending⟩ := q
  cases waiting with
  | nil => exact ⟨none, rfl⟩
  | cons code rest => exact ⟨some code.toNat, rfl⟩

theorem queue_readWord (a : Word) (s : System Queue) : ∃ w u, readWord a s = .ok w u := by
  have hread := readWord_readsTo a s
  generalize readWord a s = r at hread
  cases hread with
  | cell ha => exact ⟨_, _, rfl⟩
  | keyboard ha hpoll => exact ⟨_, _, rfl⟩
  | failed ha hpoll =>
    obtain ⟨key, hkey⟩ := Queue.answer_poll s.channel.device
    cases hkey.symm.trans (exchange_eq_error.1 hpoll).1

theorem queue_carefulConsole :
    CarefulConsole (fun _ _ => True : System Queue → System Queue → Prop)
      (OnFault fun _ _ _ => False) where
  refl _ := trivial
  trans _ _ := trivial
  stop {_ _ e _} _ h := by cases e <;> exact h
  readWord a := ⟨fun _ _ _ _ => trivial, stopsOnly_of_ok (queue_readWord a)⟩
  write _ := ⟨fun _ _ _ _ => trivial, stopsOnly_of_ok fun _ => ⟨_, _, rfl⟩⟩
  flush := ⟨fun _ _ _ _ => trivial, stopsOnly_of_ok fun _ => ⟨_, _, rfl⟩⟩

/-- Of a sequence whose second part has no faults, the faults are those of the first part. -/
theorem fault_bind_iff {ρ α β : Type} {x : EStateM Stop ρ α} {g : α → EStateM Stop ρ β} {s : ρ}
    (hg : ∀ a, StopsOnly (OnFault fun _ _ _ => False) (g a)) :
    (∃ t, (x >>= g) s = .error (.fault f) t) ↔ ∃ t, x s = .error (.fault f) t := by
  constructor
  · rintro ⟨t, h⟩
    rcases bind_eq_error.1 h with hx | ⟨a, u, -, hrest⟩
    · exact ⟨t, hx⟩
    · exact (hg a u (.fault f) t hrest).elim
  · rintro ⟨t, h⟩
    exact ⟨t, bind_of_error h⟩

/-! ## Waiting for a key -/

theorem queue_readByte_fault_iff :
    (∃ t, readByte s = .error (.fault f) t) ↔
      s.channel.device.waiting = [] ∧ f = .inputClosed := by
  obtain ⟨m, ⟨⟨waiting, flushed, pending⟩, journal⟩⟩ := s
  cases waiting with
  | nil =>
    constructor
    · rintro ⟨t, h⟩
      cases h
      exact ⟨rfl, rfl⟩
    · rintro ⟨-, rfl⟩
      exact ⟨_, rfl⟩
  | cons code rest =>
    constructor
    · rintro ⟨t, h⟩
      cases h
    · rintro ⟨h, -⟩
      cases h

theorem queue_writeAll (codes : List Nat) (s : System Queue) :
    ∃ t, atChannel (Channel.writeAll codes) s = .ok () t ∧
      t.channel.device.waiting = s.channel.device.waiting := by
  induction codes generalizing s with
  | nil => exact ⟨s, rfl, rfl⟩
  | cons code codes ih =>
    unfold Channel.writeAll
    rw [atChannel_bind]
    obtain ⟨u, hu, hwaiting⟩ :
        ∃ u, (atChannel (Channel.write code) : MachineM Queue Unit) s = .ok () u ∧
          u.channel.device.waiting = s.channel.device.waiting := ⟨_, rfl, rfl⟩
    obtain ⟨t, ht, hwaiting'⟩ := ih u
    exact ⟨t, (bind_of_ok hu).trans ht, hwaiting'.trans hwaiting⟩

theorem queue_serve_fault_iff (service : Service) :
    (∃ t, serve fuel service s = .error (.fault f) t) ↔
      service.waits = true ∧ s.channel.device.waiting = [] ∧ f = .inputClosed := by
  have hdone : ∀ b, StopsOnly (OnFault fun _ _ _ => False)
      (do setResult b; return RunState.running : MachineM Queue RunState) := fun _ =>
    stopsOnly_of_ok fun _ => ⟨_, _, rfl⟩
  by_cases hwaits : service.waits = true
  · simp only [hwaits, true_and]
    cases service with
    | getCharacter => exact (fault_bind_iff hdone).trans queue_readByte_fault_iff
    | askCharacter =>
      obtain ⟨u, hu, hwaiting⟩ := queue_writeAll (Text.units Service.prompt) s
      have hserve : serve fuel .askCharacter s =
          (do let b ← readByte; writeByte b; setResult b; return RunState.running) u :=
        bind_of_ok hu
      rw [hserve, ← hwaiting]
      refine (fault_bind_iff fun b => ?_).trans queue_readByte_fault_iff
      exact queue_carefulConsole.bind_stopsOnly (queue_carefulConsole.write _) fun _ => hdone b
    | putCharacter => cases hwaits
    | putWords => cases hwaits
    | putBytes => cases hwaits
    | halt => cases hwaits
  · constructor
    · rintro ⟨t, h⟩
      have hserve : StopsOnly (OnFault fun _ _ _ => False)
          (serve fuel service : MachineM Queue RunState) :=
        queue_carefulConsole.serve (fun h => absurd h hwaits)
          (queue_carefulConsole.putWords fun _ => trivial)
          (queue_carefulConsole.putBytes fun _ => trivial)
      exact (hserve s (.fault f) t h).elim
    · exact fun h => absurd h.1 hwaits

theorem waits_iff {n : Nat} {service : Service} (h : Service.ofVector? n = some service) :
    service.waits = true ↔ n = 0x20 ∨ n = 0x23 := by
  have hvector := Service.vector_of_ofVector? h
  cases service <;> simp only [Service.vector] at hvector <;>
    simp only [Service.waits, reduceCtorEq, true_iff, false_iff] <;> omega

/-! ## The law -/

/-- What the instruction `w` at `a` fails with when `waiting` is what is left to read. -/
inductive QueueFault (a w : Word) (waiting : List UInt8) : Fault → Prop where
  | own {f : Fault} (h : OwnFault a w f) : QueueFault a w waiting f
  /-- The service waits for a key. -/
  | closed (h : Isa.opcode w = 0xf)
      (hvector : (Isa.trapVector w).toNat = 0x20 ∨ (Isa.trapVector w).toNat = 0x23)
      (hempty : waiting = []) :
    QueueFault a w waiting .inputClosed

theorem queue_callService_fault_iff {a w : Word} (hop : Isa.opcode w = 0xf) :
    (∃ t, callService fuel (Isa.trapVector w).toNat a.toNat s = .error (.fault f) t) ↔
      QueueFault a w s.channel.device.waiting f := by
  have hlegal : ¬(Isa.opcode w = 0x8 ∨ Isa.opcode w = 0xd) := by
    rw [hop]
    decide
  unfold callService
  rcases hservice : Service.ofVector? (Isa.trapVector w).toNat with _ | service
  · have hvector := (ofVector?_eq_none_iff _).1 hservice
    constructor
    · rintro ⟨t, h⟩
      cases h
      exact .own (.unknown hop hvector)
    · intro h
      cases h with
      | own h =>
        cases h with
        | illegal h => exact absurd h hlegal
        | unknown h hvector => exact ⟨_, rfl⟩
      | closed h hvector' hempty => omega
  · refine (queue_serve_fault_iff service).trans ?_
    rw [waits_iff hservice]
    constructor
    · rintro ⟨hvector, hempty, rfl⟩
      exact .closed hop hvector hempty
    · intro h
      cases h with
      | own h =>
        cases h with
        | illegal h => exact absurd h hlegal
        | unknown h hvector => cases hservice.symm.trans ((ofVector?_eq_none_iff _).2 hvector)
      | closed h hvector hempty => exact ⟨hvector, hempty, rfl⟩

/-- The word behind a poll of the keyboard is no trap, so a trap was fetched without one. -/
theorem unpolled_of_trap {a w : Word} {u : System Queue} (h : readWord a s = .ok w u)
    (hop : Isa.opcode w = 0xf) : u = s := by
  refine unpolled h ?_ ?_
  · rintro rfl
    cases hop
  · rintro rfl
    cases hop

theorem queue_step_fault_iff (hrun : s.machine.state = .running) {w : Word} {u : System Queue}
    (hread : readWord s.machine.registers.pc s = .ok w u) :
    (∃ t, step fuel s = .error (.fault f) t) ↔
      QueueFault s.machine.registers.pc w s.channel.device.waiting f := by
  have hstep : (∃ t, step fuel s = .error (.fault f) t) ↔
      ∃ t, perform fuel s.machine.registers.pc (.decode w) (fetchedFrom s u) =
        .error (.fault f) t := by
    rw [← cycle_of_fetched hread]
    constructor
    · rintro ⟨t, h⟩
      obtain ⟨v, hv, -⟩ := cycle_of_step_fault hrun h
      exact ⟨v, hv⟩
    · rintro ⟨v, hv⟩
      exact ⟨_, step_of_fault hrun hv⟩
  refine hstep.trans ?_
  have hkind := kind_decode w
  generalize Instruction.decode w = i at hkind
  cases hkind with
  | trap hop =>
    obtain rfl := unpolled_of_trap hread hop
    simp only [perform_trap_eq_error]
    exact queue_callService_fault_iff hop
  | @illegal o hop hcode =>
    have hnot : ¬Isa.opcode w = 0xf := by rcases hop with hop | hop <;> rw [hop] <;> decide
    constructor
    · rintro ⟨t, h⟩
      cases h
      rw [← hcode]
      exact .own (.illegal hop)
    · intro h
      cases h with
      | own h =>
        cases h with
        | illegal h =>
          rw [hcode]
          exact ⟨_, rfl⟩
        | unknown h _ => exact absurd h hnot
      | closed h _ _ => exact absurd h hnot
  | plain hop htrap hillegal =>
    constructor
    · rintro ⟨t, h⟩
      exact (queue_carefulConsole.perform _ htrap hillegal _ _ _ h).elim
    · intro h
      cases h with
      | own h =>
        cases h with
        | illegal h => exact absurd h (not_or.2 ⟨hop.1, hop.2.1⟩)
        | unknown h _ => exact absurd h hop.2.2
      | closed h _ _ => exact absurd h hop.2.2

/-- A step that fails, on any console, halts the machine and passes on the fault as it came from the
console, or it is the machine's own fault at this instruction. The program counter has moved on,
unless the fetch failed, and a trap has left the return address in R7. No other register has
changed, and no cell but the keyboard's. On a queue a step fails exactly for an opcode without a
meaning, a trap without a service and a service that finds no key. -/
theorem step_fault_law :
    (∀ (σ : Type) [Console σ] (fuel : Nat) (s t : System σ) (f : Fault),
      s.machine.state = .running → step fuel s = .error (.fault f) t → FaultLeaves s f t) ∧
    ∀ s : System Queue, s.machine.state = .running →
      ∃ w u, readWord s.machine.registers.pc s = .ok w u ∧
        ∀ fuel f, (∃ t, step fuel s = .error (.fault f) t) ↔
          QueueFault s.machine.registers.pc w s.channel.device.waiting f := by
  refine ⟨fun σ _ fuel s t f hrun h => faultLeaves_of_step hrun h, fun s hrun => ?_⟩
  obtain ⟨w, u, hread⟩ := queue_readWord s.machine.registers.pc s
  exact ⟨w, u, hread, fun _ _ => queue_step_fault_iff hrun hread⟩

/-- A machine that is about to ask for a character, on a queue that is used up. -/
def askingInVain : System Queue where
  machine := { memory := Memory.blank.write 0x3000 0xf023, registers := .initial 0x3000 }
  channel := { device := {} }

theorem step_fault_law_askingInVain :
    ∃ t, step 0 askingInVain = .error (.fault .inputClosed) t ∧
      FaultLeaves askingInVain .inputClosed t := by
  obtain ⟨hany, hqueue⟩ := step_fault_law
  obtain ⟨w, u, hread, hfaults⟩ := hqueue askingInVain rfl
  have hword : askingInVain.machine.memory.read 0x3000 = 0xf023 := Memory.read_write_self ..
  have hfetch : readWord 0x3000 askingInVain = .ok 0xf023 askingInVain := by
    rw [readWord_of_ne (by decide), hword]
  cases hfetch.symm.trans hread
  obtain ⟨t, ht⟩ := (hfaults 0 .inputClosed).2 (.closed rfl (.inr rfl) rfl)
  exact ⟨t, ht, hany Queue 0 askingInVain t .inputClosed rfl ht⟩

end LC3
