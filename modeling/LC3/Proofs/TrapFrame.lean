import LC3.Console.Scripted
import LC3.Proofs.Calls
import LC3.Proofs.Halting
import LC3.Proofs.QueueFaults

/-!
# What a trap leaves alone

A trap keeps its return address in R7, moves the program counter on, and otherwise touches next to
nothing, whether it is complete or not. A service that waits for a key has a result, which goes into
R0 when all else is done. The services that print a string poll the keyboard if the string lies
across its status register, and that sets the two cells of the keyboard; no other service reads
memory. How far a string is followed is not bounded by the machine, so what a search may change is
shown along the words that it reads.
-/

namespace LC3

open MachineM

variable {σ α β : Type} {s t u : System σ} {reads reads' : List Word}

/-! ## Polling -/

/-- Between `s` and `t` nothing changed but the cells of the keyboard, and these only if its status
register is among the words that were read. -/
structure OnlyPolled (reads : List Word) (s t : System σ) : Prop extends Spared s t where
  state : t.machine.state = s.machine.state
  unread : Machine.keyboardStatus ∉ reads → t.machine.memory = s.machine.memory

theorem onlyPolled_of_machine (h : t.machine = s.machine) : OnlyPolled reads s t where
  toSpared := spared_of_machine h
  state := by rw [h]
  unread _ := by rw [h]

theorem OnlyPolled.append (h : OnlyPolled reads s t) (h' : OnlyPolled reads' t u) :
    OnlyPolled (reads ++ reads') s u where
  toSpared := h.toSpared.trans h'.toSpared
  state := h'.state.trans h.state
  unread hnot := by
    rw [List.mem_append, not_or] at hnot
    exact (h'.unread hnot.2).trans (h.unread hnot.1)

/-- From `s`, `x` changes the machine only by polling, where it reads the words at `reads`. -/
def Scans (reads : List Word) (x : MachineM σ α) (s : System σ) : Prop :=
  OnlyPolled reads s (leftBy (x s))

variable {x : MachineM σ α} {f : α → MachineM σ β}

theorem Scans.bind {next : α → System σ → List Word} (hx : Scans reads x s)
    (hf : ∀ a t, x s = .ok a t → Scans (next a t) (f a) t) :
    Scans (reads ++ behind (x s) next) (x >>= f) s := by
  unfold Scans at *
  rcases h : x s with ⟨a, t⟩ | ⟨e, t⟩
  · rw [h] at hx
    rw [bind_of_ok h]
    exact hx.append (hf a t h)
  · rw [h] at hx
    rw [bind_of_error h, behind_of_error rfl, List.append_nil]
    exact hx

/-! ## Using the console -/

/-- `x` leaves the machine as it is, whether it is complete or not. -/
def Aloof (x : MachineM σ α) : Prop := ∀ s, (leftBy (x s)).machine = s.machine

theorem aloof_pure (a : α) : Aloof (pure a : MachineM σ α) := fun _ => rfl

theorem Aloof.bind (hx : Aloof x) (hf : ∀ a, Aloof (f a)) : Aloof (x >>= f) := by
  intro s
  have hkept : ∀ a t, t.machine = s.machine → (leftBy (f a t)).machine = s.machine :=
    fun a t ht => (hf a t).trans ht
  exact leftBy_bind hkept (hx s)

theorem aloof_atChannel (use : ChannelM σ α) : Aloof (atChannel use) := by
  rintro ⟨m, c⟩
  rcases h : use c with ⟨a, d⟩ | ⟨f, d⟩
  · rw [atChannel_of_ok h]
    rfl
  · rw [atChannel_of_error h]
    rfl

theorem Aloof.scans (h : Aloof x) (s : System σ) : Scans reads x s := onlyPolled_of_machine (h s)

/-- Nothing is read at first. -/
theorem Aloof.bind_scans {next : α → System σ → List Word} (hx : Aloof x)
    (hf : ∀ a t, x s = .ok a t → Scans (next a t) (f a) t) :
    Scans (behind (x s) next) (x >>= f) s := by
  have h : Scans [] x s := hx.scans s
  exact h.bind hf

/-- What is read first is all that is read. -/
theorem Scans.bind_aloof (hx : Scans reads x s) (hf : ∀ a, Aloof (f a)) :
    Scans reads (x >>= f) s := by
  have h : Scans (reads ++ behind (x s) fun _ _ => []) (x >>= f) s :=
    hx.bind fun a t _ => (hf a).scans t
  rwa [behind_nil, List.append_nil] at h

variable [Console σ] {fuel : Nat}

theorem aloof_writeByte (b : UInt8) : Aloof (writeByte b : MachineM σ Unit) := aloof_atChannel _

theorem aloof_readByte : Aloof (readByte : MachineM σ UInt8) :=
  (aloof_atChannel _).bind fun _ => (aloof_atChannel _).bind fun _ => aloof_pure _

theorem aloof_putLow (w : Word) : Aloof (putLow w : MachineM σ Bool) :=
  (aloof_writeByte _).bind fun _ => aloof_pure _

theorem aloof_putBoth (w : Word) : Aloof (putBoth w : MachineM σ Bool) := by
  refine (aloof_writeByte _).bind fun _ => ?_
  by_cases hhigh : w.high = 0
  · rw [if_pos hhigh]
    exact aloof_pure _
  · rw [if_neg hhigh]
    exact (aloof_writeByte _).bind fun _ => aloof_pure _

/-! ## Searches -/

theorem readWord_scans (a : Word) (s : System σ) : Scans [a] (readWord a) s := by
  unfold Scans
  have hread := readWord_readsTo a s
  generalize readWord a s = r at hread
  cases hread with
  | cell ha => exact onlyPolled_of_machine rfl
  | keyboard ha hpoll =>
    subst ha
    exact ⟨⟨rfl, fun _ => read_polled _ _⟩, rfl, fun hnot => absurd (List.mem_singleton.2 rfl) hnot⟩
  | failed ha hpoll => exact onlyPolled_of_machine rfl

/-- However far a search comes, it changes memory only where it reads the status register. -/
theorem search_scans {put : Word → MachineM σ Bool} (hput : ∀ w, Aloof (put w)) (fuel : Nat)
    (a : Word) (s : System σ) : Scans (searched put fuel a s) (search put fuel a) s := by
  induction fuel generalizing a s with
  | zero => exact onlyPolled_of_machine rfl
  | succ fuel ih =>
    refine (readWord_scans a s).bind fun w t _ => ?_
    by_cases hw : w = 0
    · rw [if_pos hw, if_pos hw]
      exact (aloof_pure ()).scans t
    · rw [if_neg hw, if_neg hw]
      refine (hput w).bind_scans fun more u _ => ?_
      cases more with
      | true => exact ih (a + 1) u
      | false => exact (aloof_pure ()).scans u

/-! ## Services -/

/-- A service that does not wait for a key changes the machine by polling alone. -/
theorem serve_scans (fuel : Nat) {service : Service} (hwaits : service.waits = false)
    (s : System σ) :
    Scans (service.reads fuel s) (serve fuel service) s := by
  have hdone : ∀ q : RunState, Aloof (pure q : MachineM σ RunState) := aloof_pure
  cases service with
  | getCharacter => cases hwaits
  | putCharacter =>
    have haloof : Aloof (do writeByte (← register 0).low; return .running : MachineM σ RunState) :=
      Aloof.bind (fun _ => rfl) fun _ => (aloof_writeByte _).bind fun _ => hdone _
    exact haloof.scans s
  | putWords =>
    have hsearch := search_scans aloof_putLow fuel (s.machine.registers.get 0) s
    rw [← putWords_eq_search] at hsearch
    exact hsearch.bind_aloof fun _ => hdone _
  | askCharacter => cases hwaits
  | putBytes =>
    have hsearch := search_scans aloof_putBoth fuel (s.machine.registers.get 0) s
    rw [← putBytes_eq_search] at hsearch
    exact hsearch.bind_aloof fun _ => hdone _
  | halt =>
    have haloof : Aloof (serve fuel .halt : MachineM σ RunState) :=
      (aloof_atChannel _).bind fun _ => (aloof_atChannel _).bind fun _ => hdone _
    exact haloof.scans s

/-- A service that waits for a key leaves the machine alone up to the end, where it sets R0. -/
theorem serve_waiting (fuel : Nat) {service : Service} (hwaits : service.waits = true) :
    ∃ x : MachineM σ UInt8, Aloof x ∧
      serve fuel service = (do setResult (← x); return .running) := by
  cases service with
  | getCharacter => exact ⟨readByte, aloof_readByte, rfl⟩
  | askCharacter =>
    refine ⟨do writeText Service.prompt; let b ← readByte; writeByte b; return b, ?_, ?_⟩
    · refine (aloof_atChannel _).bind fun _ => aloof_readByte.bind fun b => ?_
      exact (aloof_writeByte b).bind fun _ => aloof_pure b
    · simp only [serve, bind_assoc, pure_bind]
  | putCharacter => cases hwaits
  | putWords => cases hwaits
  | putBytes => cases hwaits
  | halt => cases hwaits

/-- What a call may have changed that came to `r` from `s`: the cells of the keyboard, by reading at
`reads`, and R0, if it `waits` for a key and is complete. -/
structure CallFrame (waits : Prop) (reads : List Word) (s : System σ)
    (r : EStateM.Result Stop (System σ) RunState) : Prop where
  registers : ∃ w, (leftBy r).machine.registers = s.machine.registers.set 0 w ∧
    (w ≠ s.machine.registers.get 0 → waits ∧ ∃ q t, r = .ok q t)
  memory : ∀ a, a ≠ Machine.keyboardStatus → a ≠ Machine.keyboardData →
    (leftBy r).machine.memory.read a = s.machine.memory.read a
  unread : Machine.keyboardStatus ∉ reads → (leftBy r).machine.memory = s.machine.memory
  state : (leftBy r).machine.state = s.machine.state

theorem Registers.set_get_self (rs : Registers) (r : Register) : rs.set r (rs.get r) = rs := by
  unfold Registers.set Registers.get
  rw [Vector.set_getElem_self]

omit [Console σ] in
theorem OnlyPolled.callFrame {waits : Prop} {r : EStateM.Result Stop (System σ) RunState}
    (h : OnlyPolled reads s (leftBy r)) : CallFrame waits reads s r where
  registers := by
    refine ⟨s.machine.registers.get 0, ?_, fun hne => absurd rfl hne⟩
    rw [Registers.set_get_self, h.registers]
  memory := h.memory
  unread := h.unread
  state := h.state

theorem serve_frame (fuel : Nat) (service : Service) (s : System σ) :
    CallFrame (service.waits = true) (service.reads fuel s) s (serve fuel service s) := by
  cases hwaits : service.waits with
  | false => exact OnlyPolled.callFrame (serve_scans fuel hwaits s)
  | true =>
    obtain ⟨x, hx, hserve⟩ := serve_waiting (σ := σ) fuel hwaits
    have hs := hx s
    rw [hserve]
    rcases h : x s with ⟨b, t⟩ | ⟨e, t⟩
    · rw [h] at hs
      rw [bind_of_ok h]
      obtain ⟨m, c⟩ := t
      obtain rfl : m = s.machine := hs
      exact
        { registers := ⟨.ofNat 16 b.toNat, rfl, fun _ => ⟨rfl, .running, _, rfl⟩⟩
          memory := fun _ _ _ => rfl
          unread := fun _ => rfl
          state := rfl }
    · rw [h] at hs
      rw [bind_of_error h]
      exact OnlyPolled.callFrame (onlyPolled_of_machine hs)

/-! ## Traps -/

variable {vector : BitVec 8}

omit [Console σ] in
/-- A service finds its argument in R0. -/
theorem get_zero_trapped (s : System σ) :
    (trapped s).machine.registers.get 0 = s.machine.registers.get 0 :=
  (Registers.get_set ..).trans (if_neg (by decide))

theorem callService_frame (fuel : Nat) (vector : BitVec 8) (address : Int) (s : System σ) :
    CallFrame (vector = 0x20 ∨ vector = 0x23) ((Instruction.trap vector).reads fuel s) (linked s)
      (callService fuel vector.toNat address (linked s)) := by
  simp only [Instruction.reads, callService]
  cases hservice : Service.ofVector? vector.toNat with
  | none => exact OnlyPolled.callFrame (onlyPolled_of_machine rfl)
  | some service =>
    have hwaits : service.waits = true ↔ vector = 0x20 ∨ vector = 0x23 := by
      rw [waits_iff hservice, ← BitVec.toNat_inj, ← BitVec.toNat_inj]
      rfl
    have hframe := serve_frame fuel service (linked s)
    rwa [hwaits] at hframe

/-- What a step comes to by what the call of its trap comes to. -/
inductive TrapsTo : EStateM.Result Stop (System σ) RunState →
    EStateM.Result Stop (System σ) Unit → Prop where
  | complete (q : RunState) (t : System σ) :
    TrapsTo (.ok q t) (.ok () ⟨{ t.machine with state := q }, t.channel⟩)
  | failed (f : Fault) (t : System σ) :
    TrapsTo (.error (.fault f) t)
      (.error (.fault f) ⟨{ t.machine with state := .halted }, t.channel⟩)
  | stopped {e : Stop} (he : ∀ f, e ≠ .fault f) (t : System σ) : TrapsTo (.error e t) (.error e t)

theorem step_trapsTo (fuel : Nat) (hrun : s.machine.state = .running)
    (h : Fetches s (.trap vector)) :
    TrapsTo (callService fuel vector.toNat s.machine.registers.pc.toNat (trapped s))
      (step fuel s) := by
  rw [step_eq_halting hrun, cycle_of_trap h]
  rcases hcall : callService fuel vector.toNat s.machine.registers.pc.toNat (trapped s) with
    ⟨q, t⟩ | ⟨f | _ | _, t⟩
  · rw [bind_of_ok hcall]
    exact .complete q t
  · rw [bind_of_error hcall]
    exact .failed f t
  · rw [bind_of_error hcall]
    exact .stopped (e := .signal) nofun t
  · rw [bind_of_error hcall]
    exact .stopped (e := .outOfFuel) nofun t

omit [Console σ] in
theorem TrapsTo.registers {call : EStateM.Result Stop (System σ) RunState}
    {r : EStateM.Result Stop (System σ) Unit} (h : TrapsTo call r) :
    (leftBy r).machine.registers = (leftBy call).machine.registers := by
  cases h <;> rfl

omit [Console σ] in
theorem TrapsTo.memory {call : EStateM.Result Stop (System σ) RunState}
    {r : EStateM.Result Stop (System σ) Unit} (h : TrapsTo call r) :
    (leftBy r).machine.memory = (leftBy call).machine.memory := by
  cases h <;> rfl

omit [Console σ] in
theorem TrapsTo.eq_ok {q : RunState} {r : EStateM.Result Stop (System σ) Unit}
    (h : TrapsTo (.ok q t) r) : r = .ok () ⟨{ t.machine with state := q }, t.channel⟩ := by
  cases h
  rfl

/-- All services but the halting one leave the machine running. -/
theorem serve_state {service : Service} {q : RunState} (h : serve fuel service s = .ok q t) :
    q = .running ↔ service ≠ .halt := by
  constructor
  · rintro rfl rfl
    cases serve_halted s _ t h
  · intro hs
    exact serve_running hs s q t h

theorem ne_halt_iff {n : Nat} {service : Service} (h : Service.ofVector? n = some service) :
    service ≠ .halt ↔ 0x20 ≤ n ∧ n ≤ 0x24 := by
  have hvector := Service.vector_of_ofVector? h
  cases service <;> simp only [Service.vector] at hvector <;>
    simp only [ne_eq, reduceCtorEq, not_false_eq_true, not_true_eq_false, true_iff, false_iff] <;>
    omega

/-- A trap leaves the machine running if and only if it calls a service other than the halting one
and does not fail. -/
theorem step_trap_running_iff (hrun : s.machine.state = .running)
    (h : Fetches s (.trap vector)) :
    (leftBy (step fuel s)).machine.state = .running ↔
      (0x20 ≤ vector.toNat ∧ vector.toNat ≤ 0x24) ∧ ∀ f t, step fuel s ≠ .error (.fault f) t := by
  have hframe := callService_frame fuel vector s.machine.registers.pc.toNat
    (fetchedFrom s s)
  have htraps := step_trapsTo fuel hrun h
  have hstate : (leftBy (callService fuel vector.toNat s.machine.registers.pc.toNat
      (trapped s))).machine.state = .running := hframe.state.trans hrun
  cases hservice : Service.ofVector? vector.toNat with
  | none =>
    have hcall : callService fuel vector.toNat s.machine.registers.pc.toNat (trapped s) =
        .error (.fault (.unknownTrap s.machine.registers.pc.toNat vector.toNat)) (trapped s) := by
      rw [callService, hservice]
      rfl
    rw [hcall] at htraps
    generalize step fuel s = r at htraps
    cases htraps with
    | failed f t =>
      have hhalted : RunState.halted ≠ .running := by decide
      exact iff_of_false hhalted fun hrunning => hrunning.2 _ _ rfl
    | stopped he t => exact absurd rfl (he _)
  | some service =>
    have hcalled : callService fuel vector.toNat s.machine.registers.pc.toNat (trapped s) =
        serve fuel service (trapped s) := by rw [callService, hservice]
    rw [hcalled] at htraps hstate
    rw [← ne_halt_iff hservice]
    generalize hr : step fuel s = r at htraps
    generalize hcall : serve fuel service (trapped s) = call at htraps hstate
    cases htraps with
    | complete q t =>
      refine (serve_state hcall).trans (and_iff_left fun _ _ herror => ?_).symm
      cases herror
    | failed f t =>
      have hhalted : RunState.halted ≠ .running := by decide
      exact iff_of_false hhalted fun hrunning => hrunning.2 f _ rfl
    | @stopped e he t =>
      -- Only a search that runs out of fuel stops without a fault, and it is not done yet.
      refine ⟨fun _ => ⟨?_, fun f _ herror => ?_⟩, fun _ => hstate⟩
      · rintro rfl
        obtain ⟨f, hf⟩ := serve_halt_fault hcall
        exact he f hf
      · cases herror
        exact he f rfl

/-! ## The frame -/

/-- What a trap does whose step from `s` comes to `r`. The program counter moves on, and the return
address is in R7. The condition in both its places, R1 to R6 and memory stay as they are, apart from
the cells of the keyboard, which change only where a search reads the status register. R0 changes
only where a service that waits for a key is complete. -/
structure TrapFrame (fuel : Nat) (vector : BitVec 8) (s : System σ)
    (r : EStateM.Result Stop (System σ) Unit) : Prop where
  condition : (leftBy r).machine.registers.condition = s.machine.registers.condition
  conditionWord : (leftBy r).machine.registers.conditionWord = s.machine.registers.conditionWord
  general : ∀ q, q ≠ 0 → q ≠ 7 →
    (leftBy r).machine.registers.get q = s.machine.registers.get q
  pc : (leftBy r).machine.registers.pc = s.machine.registers.pc + 1
  link : (leftBy r).machine.registers.get 7 = s.machine.registers.pc + 1
  result : (leftBy r).machine.registers.get 0 ≠ s.machine.registers.get 0 →
    (vector = 0x20 ∨ vector = 0x23) ∧ ∃ t, r = .ok () t
  memory : ∀ a, a ≠ 0xfe00 → a ≠ 0xfe02 →
    (leftBy r).machine.memory.read a = s.machine.memory.read a
  keyboard : (leftBy r).machine.memory ≠ s.machine.memory →
    (vector = 0x22 ∨ vector = 0x24) ∧
      0xfe00 ∈ (Instruction.trap vector).reads fuel (fetchedFrom s s)
  running : (leftBy r).machine.state = .running ↔
    (0x20 ≤ vector.toNat ∧ vector.toNat ≤ 0x24) ∧ ∀ f t, r ≠ .error (.fault f) t

/-- Only the services that print a string read memory. -/
theorem vector_of_reads {a : Word} (h : a ∈ (Instruction.trap vector).reads fuel s) :
    vector = 0x22 ∨ vector = 0x24 := by
  have hvector (v : BitVec 8) (hv : vector.toNat = v.toNat) : vector = v := BitVec.eq_of_toNat_eq hv
  simp only [Instruction.reads] at h
  cases hservice : Service.ofVector? vector.toNat with
  | none =>
    rw [hservice] at h
    cases h
  | some service =>
    have hcode := Service.vector_of_ofVector? hservice
    rw [hservice] at h
    cases service with
    | putWords => exact .inl (hvector 0x22 (Int.ofNat_inj.1 hcode).symm)
    | putBytes => exact .inr (hvector 0x24 (Int.ofNat_inj.1 hcode).symm)
    | _ => cases h

theorem step_frame (hrun : s.machine.state = .running) (h : Fetches s (.trap vector)) :
    TrapFrame fuel vector s (step fuel s) := by
  have htraps := step_trapsTo fuel hrun h
  have hframe := callService_frame fuel vector s.machine.registers.pc.toNat
    (fetchedFrom s s)
  obtain ⟨w, hregisters, hresult⟩ := hframe.registers
  -- Whatever the step comes to, all registers are those of the link, up to R0.
  have hleft : (leftBy (step fuel s)).machine.registers =
      ((s.machine.registers.jump (s.machine.registers.pc + 1)).set 7
        (s.machine.registers.pc + 1)).set 0 w := htraps.registers.trans hregisters
  refine
    { condition := by rw [hleft]; rfl
      conditionWord := by rw [hleft]; rfl
      general := fun q h0 h7 => ?_
      pc := by rw [hleft]; rfl
      link := ?_
      result := fun hne => ?_
      memory := fun a => ?_
      keyboard := fun hne => ?_
      running := step_trap_running_iff hrun h }
  · rw [hleft, Registers.get_set, if_neg h0.symm, Registers.get_set, if_neg h7.symm]
    rfl
  · rw [hleft, Registers.get_set, if_neg (by decide), Registers.get_set_self]
  · rw [hleft, Registers.get_set_self, ← get_zero_trapped] at hne
    obtain ⟨hwaits, q, t, hcall⟩ := hresult hne
    have hcomplete : TrapsTo (.ok q t) (step fuel s) := hcall ▸ htraps
    exact ⟨hwaits, _, hcomplete.eq_ok⟩
  · rw [htraps.memory]
    exact hframe.memory a
  · rw [htraps.memory] at hne
    have hread := not_imp_comm.1 hframe.unread hne
    exact ⟨vector_of_reads hread, hread⟩

/-! ## Calls -/

omit [Console σ] in
theorem Makes.bind_silent {made : List Call} (hx : Makes x s made)
    (hf : ∀ a t, (leftBy (f a t)).channel = t.channel) : Makes (x >>= f) s made := by
  rcases h : x s with ⟨a, t⟩ | ⟨e, t⟩
  · have hall := hx.bind_ok h (makes_nothing (hf a t))
    rwa [List.append_nil] at hall
  · exact hx.bind_error h

/-- Writing a character is one call. -/
theorem makes_putCharacter (s : System σ) :
    Makes (serve fuel .putCharacter) s [.write ((s.machine.registers.get 0).toNat % 256)] := by
  have hbyte : ((s.machine.registers.get 0).low.toNat : Int) =
      (s.machine.registers.get 0).toNat % 256 := by
    rw [Word.toNat_low]
    rfl
  have hwritten : Makes (writeByte (s.machine.registers.get 0).low) s
      [.write (s.machine.registers.get 0).low.toNat] := makes_exchange ..
  rw [← hbyte]
  exact hwritten.bind_silent (f := fun _ => pure RunState.running) fun _ _ => rfl

/-- A trap makes the calls of its service. -/
theorem Makes.step {service : Service} {made : List Call} (hrun : s.machine.state = .running)
    (h : Fetches s (.trap vector)) (hservice : Service.ofVector? vector.toNat = some service)
    (hcalls : Makes (serve fuel service) (trapped s) made) : Makes (MachineM.step fuel) s made := by
  have hcycle : Makes (do setState (← serve fuel service)) (trapped s) made :=
    hcalls.bind_silent fun _ _ => rfl
  rw [makes_step_iff hrun]
  unfold Makes at *
  rw [cycle_of_service h hservice]
  exact hcycle

/-- A trap of a running machine, whatever its vector and whatever the console answers, has touched
nothing but R7, the program counter and what its service is there for, also when it fails half way.
It leaves the machine running unless it halts it or fails. What a service that waits for a key
leaves in R0 is the low byte of the code that it read, and the service that writes a character makes
one call, with the low byte that R0 had before. -/
theorem trap_frame (fuel : Nat) {vector : BitVec 8} {s : System σ}
    (hrun : s.machine.state = .running) (h : Fetches s (.trap vector)) :
    TrapFrame fuel vector s (step fuel s) ∧
      (vector = 0x20 → ReadsByte (step fuel) s [] fun _ => []) ∧
      (vector = 0x23 → ReadsByte (step fuel) s (Call.text "Enter a character: ") Call.echo) ∧
      (vector = 0x21 → Makes (step fuel) s [.write ((s.machine.registers.get 0).toNat % 256)]) := by
  refine ⟨step_frame hrun h, ?_, ?_, ?_⟩
  · rintro rfl
    exact (readsByte_getCharacter (trapped s)).step hrun h rfl
  · rintro rfl
    exact (readsByte_askCharacter (trapped s)).step hrun h rfl
  · rintro rfl
    rw [← get_zero_trapped]
    exact (makes_putCharacter (trapped s)).step hrun h rfl

/-- A machine at a trap with `argument` in R0, on a console that has a key and answers with a code
that is no byte. -/
def trapping (vector argument : Word) : System Scripted where
  machine :=
    { memory := Memory.blank.write 0 (0xf000 + vector)
      registers := (Registers.initial 0).set 0 argument }
  channel := { device := { reads := [.ok 0x141], polls := [.ok (some 0x41)] } }

theorem trap_frame_trapping :
    TrapFrame 2 0x22 (trapping 0x22 0xfe00) (step 2 (trapping 0x22 0xfe00)) ∧
      TrapFrame 0 0x99 (trapping 0x99 0) (step 0 (trapping 0x99 0)) ∧
      ReadsByte (step 0) (trapping 0x20 0) [] (fun _ => []) ∧
      ReadsByte (step 0) (trapping 0x23 0) (Call.text "Enter a character: ") Call.echo ∧
      Makes (step 0) (trapping 0x21 0x141) [.write 0x41] := by
  have hfetch (vector argument : Word) (htrap : Instruction.decode (0xf000 + vector) =
      .trap (vector.setWidth 8)) :
      Fetches (trapping vector argument) (.trap (vector.setWidth 8)) := by
    have hword : (trapping vector argument).machine.memory.read 0 = 0xf000 + vector :=
      Memory.read_write_self ..
    have hpc : (0 : Word) ≠ Machine.keyboardStatus := by decide
    refine ⟨_, _, readWord_of_ne hpc _, ?_⟩
    rw [← htrap, ← hword]
  obtain ⟨hsearch, -⟩ := trap_frame 2 (s := trapping 0x22 0xfe00) rfl (hfetch 0x22 0xfe00 rfl)
  obtain ⟨hunknown, -⟩ := trap_frame 0 (s := trapping 0x99 0) rfl (hfetch 0x99 0 rfl)
  obtain ⟨-, hget, -⟩ := trap_frame 0 (s := trapping 0x20 0) rfl (hfetch 0x20 0 rfl)
  obtain ⟨-, -, hask, -⟩ := trap_frame 0 (s := trapping 0x23 0) rfl (hfetch 0x23 0 rfl)
  obtain ⟨-, -, -, hput⟩ := trap_frame 0 (s := trapping 0x21 0x141) rfl (hfetch 0x21 0x141 rfl)
  exact ⟨hsearch, hunknown, hget rfl, hask rfl, hput rfl⟩

end LC3
