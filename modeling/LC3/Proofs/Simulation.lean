import LC3.Machine.Run
import LC3.Proofs.Agreement

/-!
# Agreement of machines

Everything a machine does is made of a dozen primitives. `StepSimulation Lost R` says that each of
those that make up a step agrees with itself on systems that `R` relates, possibly with different
consoles. All that is built from them then agrees, layer by layer: services, instructions, steps and
runs. With `Simulation Lost R` runs in slices do so too, for it adds that giving control back agrees
with itself. The fuel on the right may be more than that on the left.
-/

namespace LC3

open MachineM

variable {σ τ α : Type}

theorem atChannel_bind {β : Type} (x : ChannelM σ α) (f : α → ChannelM σ β) :
    atChannel (x >>= f) = (do atChannel (f (← atChannel x)) : MachineM σ β) := by
  funext ⟨m, c⟩
  rcases h : x c with ⟨a, d⟩ | ⟨e, d⟩
  · rw [bind_of_ok (atChannel_of_ok h)]
    rcases hf : f a d with ⟨b, d'⟩ | ⟨e, d'⟩
    · rw [atChannel_of_ok hf, atChannel_of_ok ((bind_of_ok h).trans hf)]
    · rw [atChannel_of_error hf, atChannel_of_error ((bind_of_ok h).trans hf)]
  · rw [bind_of_error (atChannel_of_error h), atChannel_of_error (bind_of_error h)]

theorem atChannel_quiet (x : ChannelM σ α) : Quiet (atChannel x : MachineM σ α) := by
  intro s u h
  obtain ⟨f, hf⟩ := atChannel_stop h
  cases hf

/-- `f n` repeats `body` until the machine is halted, at most `n` times. -/
structure Loops (body : MachineM σ Unit) (f : Nat → MachineM σ Unit) : Prop where
  /-- A machine that still runs after the last time is out of fuel. -/
  zero : f 0 = do if ← isRunning then throw .outOfFuel
  succ (n : Nat) : f (n + 1) = do if ← isRunning then do body; f n

theorem runFor_loops [Console σ] (fuel : Nat) :
    Loops (step fuel : MachineM σ Unit) (runFor fuel) := ⟨rfl, fun _ => rfl⟩

theorem slicesFor_loops [Console σ] (fuel size : Nat) (signalWaiting : Bool) :
    Loops (slice fuel size signalWaiting : MachineM σ Unit) (slicesFor fuel size signalWaiting) :=
  ⟨rfl, fun _ => rfl⟩

/-- How a loop ends whose body keeps `Q`: complete, for lack of fuel, or where the body stops. -/
inductive LoopEnds (body : MachineM σ Unit) (Q : System σ → Prop) :
    EStateM.Result Stop (System σ) Unit → Prop where
  | ok {t : System σ} (h : Q t) : LoopEnds body Q (.ok () t)
  | outOfFuel {t : System σ} (h : Q t) : LoopEnds body Q (.error .outOfFuel t)
  | stopped {u t : System σ} {e : Stop} (h : Q u) (hbody : body u = .error e t) :
    LoopEnds body Q (.error e t)

namespace Loops

variable {body : MachineM σ Unit} {f : Nat → MachineM σ Unit} {Q : System σ → Prop} {n : Nat}
  {s t : System σ}

theorem ends (h : Loops body f) (hbody : ∀ s t, Q s → body s = .ok () t → Q t) (hs : Q s) :
    LoopEnds body Q (f n s) := by
  induction n generalizing s with
  | zero =>
    rw [h.zero]
    cases hrun : s.machine.isRunning with
    | true =>
      rw [guard_of_running _ hrun]
      exact .outOfFuel hs
    | false =>
      rw [guard_of_halted _ hrun]
      exact .ok hs
  | succ n ih =>
    rw [h.succ]
    cases hrun : s.machine.isRunning with
    | true =>
      rw [guard_of_running _ hrun]
      rcases hfirst : body s with ⟨_, u⟩ | ⟨e, u⟩
      · rw [bind_of_ok hfirst]
        exact ih (hbody s u hs hfirst)
      · rw [bind_of_error hfirst]
        exact .stopped hs hfirst
    | false =>
      rw [guard_of_halted _ hrun]
      exact .ok hs

theorem lost (h : Loops body f) {Lost : System σ → Prop}
    (hbody : ∀ s, Lost s → Lost (leftBy (body s))) (n : Nat) :
    ∀ s, Lost s → Lost (leftBy (f n s)) := by
  intro s hs
  have hends : LoopEnds body Lost (f n s) := by
    refine h.ends (fun s t hs ht => ?_) hs
    have hlost := hbody s hs
    rwa [ht] at hlost
  generalize f n s = r at hends
  cases hends with
  | ok h => exact h
  | outOfFuel h => exact h
  | @stopped u t e h ht =>
    have hlost := hbody u h
    rwa [ht] at hlost

theorem ok (h : Loops body f) (hbody : ∀ s t, Q s → body s = .ok () t → Q t) (hs : Q s)
    (hf : f n s = .ok () t) : Q t := by
  have hends : LoopEnds body Q (f n s) := h.ends hbody hs
  rw [hf] at hends
  cases hends with
  | ok h => exact h

theorem fault (h : Loops body f) {e : Fault} (hf : f n s = .error (.fault e) t) :
    ∃ u, body u = .error (.fault e) t := by
  have hends : LoopEnds body (fun _ => True) (f n s) := h.ends (fun _ _ _ _ => trivial) trivial
  rw [hf] at hends
  cases hends with
  | stopped _ hbody => exact ⟨_, hbody⟩

end Loops

/-- Each primitive of a step agrees with itself, as far as the run state is left alone. -/
structure Primitives [Console σ] [Console τ] (Lost : System σ → Prop)
    (R : System σ → System τ → Prop) : Prop where
  isRunning : Agree Lost R isRunning isRunning
  pc : Agree Lost R pc pc
  condition : Agree Lost R condition condition
  register (r : Register) : Agree Lost R (register r) (register r)
  setRegisters (change : Registers → Registers) :
    Agree Lost R (setRegisters change) (setRegisters change)
  readWord (a : Word) : Agree Lost R (readWord a) (readWord a)
  writeWord (a w : Word) : Agree Lost R (writeWord a w) (writeWord a w)
  read : Agree Lost R (atChannel Channel.read) (atChannel Channel.read)
  write (code : Int) :
    Agree Lost R (atChannel (Channel.write code)) (atChannel (Channel.write code))
  flush : Agree Lost R (atChannel Channel.flush) (atChannel Channel.flush)

/-- Each primitive of a step agrees with itself. -/
structure StepSimulation [Console σ] [Console τ] (Lost : System σ → Prop)
    (R : System σ → System τ → Prop) : Prop extends Primitives Lost R where
  setState (state : RunState) : Agree Lost R (setState state) (setState state)

/-- Each primitive of the machine agrees with itself, and so does giving control back. -/
structure Simulation [Console σ] [Console τ] (Lost : System σ → Prop)
    (R : System σ → System τ → Prop) : Prop extends StepSimulation Lost R where
  notePause : Agree Lost R (atChannel (Channel.note .pause)) (atChannel (Channel.note .pause))

section Machine

variable [Console σ] [Console τ] {Lost : System σ → Prop} {R : System σ → System τ → Prop}
  {fuel fuel' : Nat}

namespace Primitives

/-! ## Services -/

theorem writeByte (h : Primitives Lost R) (b : UInt8) :
    Agree Lost R (writeByte b) (writeByte b) := h.write _

theorem writeAll (h : Primitives Lost R) (codes : List Nat) :
    Agree Lost R (atChannel (Channel.writeAll codes)) (atChannel (Channel.writeAll codes)) := by
  induction codes with
  | nil => exact Agree.pure ()
  | cons code codes ih =>
    unfold Channel.writeAll
    rw [atChannel_bind, atChannel_bind]
    exact (h.write code).bind fun _ => ih

theorem writeText (h : Primitives Lost R) (text : String) :
    Agree Lost R (writeText text) (writeText text) := h.writeAll _

theorem readByte (h : Primitives Lost R) : Agree Lost R readByte readByte :=
  h.flush.bind fun _ => h.read.bind fun _ => Agree.pure _

theorem setResult (h : Primitives Lost R) (b : UInt8) :
    Agree Lost R (setResult b) (setResult b) := h.setRegisters _

theorem putWords (h : Primitives Lost R) (hfuel : fuel ≤ fuel') (a : Word) :
    Agree Lost R (putWords fuel a) (putWords fuel' a) := by
  induction fuel generalizing fuel' a with
  | zero => exact Agree.outOfFuel _
  | succ fuel ih =>
    obtain ⟨fuel', rfl⟩ : ∃ n, fuel' = n + 1 := ⟨fuel' - 1, by omega⟩
    refine (h.readWord a).bind fun w => Agree.ite (Agree.pure ()) ?_
    exact (h.writeByte _).bind fun _ => ih (by omega) _

theorem putBytes (h : Primitives Lost R) (hfuel : fuel ≤ fuel') (a : Word) :
    Agree Lost R (putBytes fuel a) (putBytes fuel' a) := by
  induction fuel generalizing fuel' a with
  | zero => exact Agree.outOfFuel _
  | succ fuel ih =>
    obtain ⟨fuel', rfl⟩ : ∃ n, fuel' = n + 1 := ⟨fuel' - 1, by omega⟩
    refine (h.readWord a).bind fun w => Agree.ite (Agree.pure ()) ?_
    refine (h.writeByte _).bind fun _ => Agree.ite (Agree.pure ()) ?_
    exact (h.writeByte _).bind fun _ => ih (by omega) _

theorem serve (h : Primitives Lost R) (hfuel : fuel ≤ fuel') (service : Service) :
    Agree Lost R (serve fuel service) (serve fuel' service) := by
  cases service with
  | getCharacter => exact h.readByte.bind fun b => (h.setResult b).bind fun _ => Agree.pure _
  | putCharacter => exact (h.register 0).bind fun _ => (h.writeByte _).bind fun _ => Agree.pure _
  | putWords =>
    exact (h.register 0).bind fun a => (h.putWords hfuel a).bind fun _ => Agree.pure _
  | askCharacter =>
    refine (h.writeText _).bind fun _ => h.readByte.bind fun b => ?_
    exact (h.writeByte b).bind fun _ => (h.setResult b).bind fun _ => Agree.pure _
  | putBytes =>
    exact (h.register 0).bind fun a => (h.putBytes hfuel a).bind fun _ => Agree.pure _
  | halt => exact (h.writeText _).bind fun _ => h.flush.bind fun _ => Agree.pure _

theorem callService (h : Primitives Lost R) (hfuel : fuel ≤ fuel') (vector address : Int) :
    Agree Lost R (callService fuel vector address) (callService fuel' vector address) := by
  unfold MachineM.callService
  cases Service.ofVector? vector with
  | some service => exact h.serve hfuel service
  | none => exact Agree.fault _

/-! ## Instructions -/

theorem operand (h : Primitives Lost R) (o : Operand) :
    Agree Lost R (operand o) (operand o) := by
  cases o with
  | register r => exact h.register r
  | literal w => exact Agree.pure w

theorem relative (h : Primitives Lost R) (offset : Word) :
    Agree Lost R (relative offset) (relative offset) := h.pc.bind fun _ => Agree.pure _

theorem based (h : Primitives Lost R) (base : Register) (offset : Word) :
    Agree Lost R (based base offset) (based base offset) :=
  (h.register base).bind fun _ => Agree.pure _

theorem setJudged (h : Primitives Lost R) (r : Register) (w : Word) :
    Agree Lost R (setJudged r w) (setJudged r w) := h.setRegisters _

theorem jump (h : Primitives Lost R) (target : Word) :
    Agree Lost R (jump target) (jump target) := h.setRegisters _

theorem link (h : Primitives Lost R) (returnAddress : Word) :
    Agree Lost R (link returnAddress) (link returnAddress) := h.setRegisters _

/-- Only a trap changes the run state. -/
theorem perform_of_not_trap (h : Primitives Lost R) (address : Word) {i : Instruction}
    (hi : ∀ vector, i ≠ .trap vector) :
    Agree Lost R (perform fuel address i) (perform fuel' address i) := by
  cases i with
  | add target left right =>
    exact (h.register left).bind fun _ => (h.operand right).bind fun _ => h.setJudged _ _
  | and target left right =>
    exact (h.register left).bind fun _ => (h.operand right).bind fun _ => h.setJudged _ _
  | not target source => exact (h.register source).bind fun _ => h.setJudged _ _
  | branch mask offset =>
    refine h.condition.bind fun c => Agree.ite ?_ (Agree.pure ())
    exact (h.relative offset).bind fun _ => h.jump _
  | jump base => exact (h.register base).bind fun _ => h.jump _
  | call offset =>
    exact (h.relative offset).bind fun _ => h.pc.bind fun _ => (h.link _).bind fun _ => h.jump _
  | callRegister base =>
    exact (h.register base).bind fun _ => h.pc.bind fun _ => (h.link _).bind fun _ => h.jump _
  | load target offset =>
    exact (h.relative offset).bind fun _ => (h.readWord _).bind fun _ => h.setJudged _ _
  | loadIndirect target offset =>
    refine (h.relative offset).bind fun _ => (h.readWord _).bind fun _ => ?_
    exact (h.readWord _).bind fun _ => h.setJudged _ _
  | loadBase target base offset =>
    exact (h.based base offset).bind fun _ => (h.readWord _).bind fun _ => h.setJudged _ _
  | loadAddress target offset => exact (h.relative offset).bind fun _ => h.setJudged _ _
  | store source offset =>
    exact (h.relative offset).bind fun _ => (h.register source).bind fun _ => h.writeWord _ _
  | storeIndirect source offset =>
    refine (h.relative offset).bind fun _ => (h.readWord _).bind fun _ => ?_
    exact (h.register source).bind fun _ => h.writeWord _ _
  | storeBase source base offset =>
    exact (h.based base offset).bind fun _ => (h.register source).bind fun _ => h.writeWord _ _
  | trap vector => exact absurd rfl (hi vector)
  | illegal opcode => exact Agree.fault _

end Primitives

namespace StepSimulation

theorem perform (h : StepSimulation Lost R) (hfuel : fuel ≤ fuel') (address : Word)
    (i : Instruction) : Agree Lost R (perform fuel address i) (perform fuel' address i) := by
  by_cases hi : ∃ vector, i = .trap vector
  · obtain ⟨vector, rfl⟩ := hi
    refine h.pc.bind fun _ => (h.link _).bind fun _ => ?_
    exact (h.callService hfuel _ _).bind fun _ => h.setState _
  · exact h.perform_of_not_trap address fun vector hv => hi ⟨vector, hv⟩

theorem cycle (h : StepSimulation Lost R) (hfuel : fuel ≤ fuel') :
    Agree Lost R (cycle fuel) (cycle fuel') :=
  h.pc.bind fun _ => (h.readWord _).bind fun _ => (h.jump _).bind fun _ => h.perform hfuel _ _

theorem step (h : StepSimulation Lost R) (hfuel : fuel ≤ fuel') :
    Agree Lost R (step fuel) (step fuel') := by
  refine h.isRunning.bind fun _ => Agree.ite ?_ (Agree.pure ())
  exact (h.cycle hfuel).catchFault fun _ => (h.setState _).bind fun _ => Agree.fault _

/-! ## Runs -/

theorem steps (h : StepSimulation Lost R) (hfuel : fuel ≤ fuel') (n : Nat) :
    Agree Lost R (steps fuel n) (steps fuel' n) := by
  induction n with
  | zero => exact Agree.pure ()
  | succ n ih =>
    exact h.isRunning.bind fun _ => Agree.ite ((h.step hfuel).bind fun _ => ih) (Agree.pure ())

theorem loops (h : StepSimulation Lost R) {x : MachineM σ Unit} {y : MachineM τ Unit}
    {f : Nat → MachineM σ Unit} {g : Nat → MachineM τ Unit} (hf : Loops x f) (hg : Loops y g)
    (hxy : Agree Lost R x y) {n n' : Nat} (hn : n ≤ n') : Agree Lost R (f n) (g n') := by
  induction n generalizing n' with
  | zero =>
    rw [hf.zero]
    cases n' with
    | zero =>
      rw [hg.zero]
      exact h.isRunning.bind fun _ => Agree.ite (Agree.outOfFuel _) (Agree.pure ())
    | succ n' =>
      rw [hg.succ]
      exact h.isRunning.bind fun _ => Agree.ite (Agree.outOfFuel _) (Agree.pure ())
  | succ n ih =>
    obtain ⟨n', rfl⟩ : ∃ k, n' = k + 1 := ⟨n' - 1, by omega⟩
    rw [hf.succ, hg.succ]
    refine h.isRunning.bind fun _ => Agree.ite ?_ (Agree.pure ())
    exact hxy.bind fun _ => ih (by omega)

theorem runFor (h : StepSimulation Lost R) (hfuel : fuel ≤ fuel') {n n' : Nat} (hn : n ≤ n') :
    Agree Lost R (runFor fuel n) (runFor fuel' n') :=
  h.loops (runFor_loops fuel) (runFor_loops fuel') (h.step hfuel) hn

theorem run (h : StepSimulation Lost R) (hfuel : fuel ≤ fuel') :
    Agree Lost R (run fuel) (run fuel') := h.runFor hfuel hfuel

end StepSimulation

namespace Simulation

theorem slice (h : Simulation Lost R) (hfuel : fuel ≤ fuel') (size : Nat) :
    Agree Lost R (slice fuel size false) (slice fuel' size false) :=
  (h.steps hfuel size).bind fun _ => h.flush.bind fun _ => h.notePause.bind fun _ => Agree.pure ()

theorem slicesFor (h : Simulation Lost R) (hfuel : fuel ≤ fuel') (size : Nat) {n n' : Nat}
    (hn : n ≤ n') :
    Agree Lost R (slicesFor fuel size false n) (slicesFor fuel' size false n') :=
  h.loops (slicesFor_loops fuel size _) (slicesFor_loops fuel' size _) (h.slice hfuel size) hn

/-- A run in slices keeps what is lost, also if a signal stops it. -/
theorem lost_slicesFor (h : Simulation Lost R) (fuel size : Nat) (signalWaiting : Bool) (n : Nat)
    (s : System σ) (hs : Lost s) :
    Lost (leftBy (MachineM.slicesFor fuel size signalWaiting n s)) := by
  have hpause : ∀ s, Lost s → Lost (leftBy (MachineM.pause signalWaiting s)) := by
    intro s hs
    refine leftBy_bind (fun _ u hu => ?_) (h.notePause.lost s hs)
    cases signalWaiting with
    | true => exact hu
    | false => exact hu
  refine (slicesFor_loops fuel size signalWaiting).lost (fun u hu => ?_) n s hs
  refine leftBy_bind (fun _ v hv => ?_) ((h.steps (Nat.le_refl fuel) size).lost u hu)
  exact leftBy_bind (fun _ => hpause) (h.flush.lost v hv)

end Simulation

end Machine

/-! ## Consoles -/

/-- The channel after a reply of its device. -/
def Channel.after (c : Channel σ) (reply : Reply σ α) (call : Except Fault α → Call) :
    Channel σ :=
  ⟨reply.device, (c.journal.noteTraffic reply.traffic).push (.call (call reply.answer))⟩

section Exchange

variable {operation : σ → Reply σ α} {c : Channel σ}

theorem exchange_of_ok (call : Except Fault α → Call) {a : α}
    (h : (operation c.device).answer = .ok a) :
    Channel.exchange operation call c = .ok a (c.after (operation c.device) call) := by
  unfold Channel.exchange Channel.after
  simp only [h]

theorem exchange_of_error (call : Except Fault α → Call) {f : Fault}
    (h : (operation c.device).answer = .error f) :
    Channel.exchange operation call c = .error f (c.after (operation c.device) call) := by
  unfold Channel.exchange Channel.after
  simp only [h]

theorem exchange_eq_ok {call : Except Fault α → Call} {d : Channel σ} {a : α} :
    Channel.exchange operation call c = .ok a d ↔
      (operation c.device).answer = .ok a ∧ d = c.after (operation c.device) call := by
  constructor
  · intro h
    rcases ha : (operation c.device).answer with f | b
    · rw [exchange_of_error call ha] at h
      cases h
    · rw [exchange_of_ok call ha] at h
      cases h
      exact ⟨rfl, rfl⟩
  · rintro ⟨ha, rfl⟩
    exact exchange_of_ok call ha

theorem exchange_eq_error {call : Except Fault α → Call} {d : Channel σ} {f : Fault} :
    Channel.exchange operation call c = .error f d ↔
      (operation c.device).answer = .error f ∧ d = c.after (operation c.device) call := by
  constructor
  · intro h
    rcases ha : (operation c.device).answer with f' | b
    · rw [exchange_of_error call ha] at h
      cases h
      exact ⟨rfl, rfl⟩
    · rw [exchange_of_ok call ha] at h
      cases h
  · rintro ⟨ha, rfl⟩
    exact exchange_of_error call ha

theorem channel_exchange (operation : σ → Reply σ α) (call : Except Fault α → Call) (s : System σ) :
    (leftBy (atChannel (Channel.exchange operation call) s)).channel =
      s.channel.after (operation s.channel.device) call := by
  obtain ⟨m, c⟩ := s
  cases ha : (operation c.device).answer with
  | ok a =>
    rw [atChannel_of_ok (exchange_of_ok call ha)]
    rfl
  | error f =>
    rw [atChannel_of_error (exchange_of_error call ha)]
    rfl

end Exchange

/-- One operation of two devices has the same answer on related channels, unless it loses the
first. -/
structure Exchanges (Lost : Channel σ → Prop) (R : Channel σ → Channel τ → Prop)
    (operation : σ → Reply σ α) (operation' : τ → Reply τ α) (call : Except Fault α → Call) :
    Prop where
  lost : ∀ c, Lost c → Lost (c.after (operation c.device) call)
  alike : ∀ c d, R c d → Lost (c.after (operation c.device) call) ∨
    (operation c.device).answer = (operation' d.device).answer ∧
      R (c.after (operation c.device) call) (d.after (operation' d.device) call)

/-- Two consoles that a step cannot tell apart as long as the first is not lost. -/
structure ConsoleSimulation [Console σ] [Console τ] (Lost : Channel σ → Prop)
    (R : Channel σ → Channel τ → Prop) : Prop where
  read : Exchanges Lost R Console.read Console.read .read
  poll : Exchanges Lost R Console.poll Console.poll .poll
  write (code : Int) :
    Exchanges Lost R (Console.write code) (Console.write code) fun _ => .write code
  flush : Exchanges Lost R Console.flush Console.flush fun _ => .flush

/-- Two consoles that a program cannot tell apart as long as the first is not lost, nor the breaks
that it is given. -/
structure ChannelSimulation [Console σ] [Console τ] (Lost : Channel σ → Prop)
    (R : Channel σ → Channel τ → Prop) : Prop extends ConsoleSimulation Lost R where
  pauseLost : ∀ c, Lost c → Lost ⟨c.device, c.journal.push .pause⟩
  pause : ∀ c d, R c d →
    R ⟨c.device, c.journal.push .pause⟩ ⟨d.device, d.journal.push .pause⟩

/-- The same machine on related channels. -/
structure OnSameMachine (R : Channel σ → Channel τ → Prop) (s : System σ) (t : System τ) :
    Prop where
  machine : s.machine = t.machine
  channel : R s.channel t.channel

namespace ConsoleSimulation

variable {Lost : Channel σ → Prop} {R : Channel σ → Channel τ → Prop}

theorem agree_of_machine {x : MachineM σ α} {y : MachineM τ α} (look : Machine → α)
    (change : Machine → Machine)
    (hx : ∀ s, x s = .ok (look s.machine) ⟨change s.machine, s.channel⟩)
    (hy : ∀ t, y t = .ok (look t.machine) ⟨change t.machine, t.channel⟩) :
    Agree (fun s => Lost s.channel) (OnSameMachine R) x y := by
  refine ⟨?_, ?_, ?_⟩
  · intro s u
    rw [hx s]
    exact nofun
  · intro s hs
    rw [hx s]
    exact hs
  · intro s t hst
    right; right
    rw [hx s, hy t, hst.machine]
    exact .ok _ ⟨rfl, hst.channel⟩

theorem agree_of_exchanges {operation : σ → Reply σ α} {operation' : τ → Reply τ α}
    {call : Except Fault α → Call} (h : Exchanges Lost R operation operation' call) :
    Agree (fun s => Lost s.channel) (OnSameMachine R)
      (atChannel (Channel.exchange operation call))
      (atChannel (Channel.exchange operation' call)) := by
  refine ⟨atChannel_quiet _, ?_, ?_⟩
  · intro s hs
    rw [channel_exchange]
    exact h.lost _ hs
  · rintro ⟨m, c⟩ ⟨_, d⟩ ⟨rfl, hcd⟩
    rcases h.alike c d hcd with hl | ⟨ha, hr⟩
    · left
      rw [channel_exchange]
      exact hl
    · right; right
      cases hc : (operation c.device).answer with
      | ok a =>
        rw [atChannel_of_ok (exchange_of_ok call hc),
          atChannel_of_ok (exchange_of_ok call (ha.symm.trans hc))]
        exact .ok a ⟨rfl, hr⟩
      | error f =>
        rw [atChannel_of_error (exchange_of_error call hc),
          atChannel_of_error (exchange_of_error call (ha.symm.trans hc))]
        exact .error _ ⟨rfl, hr⟩

variable [Console σ] [Console τ]

theorem agree_readWord (h : ConsoleSimulation Lost R) (a : Word) :
    Agree (fun s => Lost s.channel) (OnSameMachine R) (readWord a) (readWord a) := by
  have hcell : Agree (fun s => Lost s.channel) (OnSameMachine R) (cell a) (cell a) :=
    agree_of_machine (fun m => m.memory.read a) id (fun _ => rfl) fun _ => rfl
  have hpoll : Agree (fun s => Lost s.channel) (OnSameMachine R) pollKeyboard pollKeyboard := by
    refine (agree_of_exchanges h.poll).bind fun key => ?_
    cases key with
    | some key =>
      exact agree_of_machine (fun _ => ())
        (fun m => { m with memory := polled m.memory (some key) })
        (fun _ => rfl) fun _ => rfl
    | none =>
      exact agree_of_machine (fun _ => ()) (fun m => { m with memory := polled m.memory none })
        (fun _ => rfl) fun _ => rfl
  rw [readWord_eq, readWord_eq]
  exact Agree.ite (hpoll.bind fun _ => hcell) hcell

/-- A machine on two consoles that cannot be told apart. -/
theorem stepSimulation (h : ConsoleSimulation Lost R) :
    StepSimulation (fun s => Lost s.channel) (OnSameMachine R) where
  isRunning := agree_of_machine Machine.isRunning id (fun _ => rfl) fun _ => rfl
  pc := agree_of_machine (fun m => m.registers.pc) id (fun _ => rfl) fun _ => rfl
  condition := agree_of_machine (fun m => m.registers.condition) id (fun _ => rfl) fun _ => rfl
  register r := agree_of_machine (fun m => m.registers.get r) id (fun _ => rfl) fun _ => rfl
  setRegisters change :=
    agree_of_machine (fun _ => ()) (fun m => { m with registers := change m.registers })
      (fun _ => rfl) fun _ => rfl
  setState state :=
    agree_of_machine (fun _ => ()) (fun m => { m with state }) (fun _ => rfl) fun _ => rfl
  readWord := h.agree_readWord
  writeWord a w :=
    agree_of_machine (fun _ => ()) (fun m => { m with memory := m.memory.write a w })
      (fun _ => rfl) fun _ => rfl
  read := agree_of_exchanges h.read
  write code := agree_of_exchanges (h.write code)
  flush := agree_of_exchanges h.flush

end ConsoleSimulation

theorem ChannelSimulation.simulation [Console σ] [Console τ] {Lost : Channel σ → Prop}
    {R : Channel σ → Channel τ → Prop} (h : ChannelSimulation Lost R) :
    Simulation (fun s => Lost s.channel) (OnSameMachine R) where
  toStepSimulation := h.stepSimulation
  notePause :=
    ⟨atChannel_quiet _, fun s hs => h.pauseLost s.channel hs,
      fun _ _ hst => .inr (.inr (.ok () ⟨hst.machine, h.pause _ _ hst.channel⟩))⟩

end LC3
