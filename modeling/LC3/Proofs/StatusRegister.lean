import LC3.Console.Queue
import LC3.Proofs.Journals

/-!
# The stored status is never observed

Reading the keyboard's status register polls the keyboard, and the poll sets the register before it
is read. So what is stored in its cell, by a program or as part of an image, has no influence on
anything: machines that differ in this cell alone run alike. The difference lasts until the cell is
renewed, by a store to it or by a read of it that is complete.
-/

namespace LC3

open MachineM

/-- Whether a poll of the keyboard was answered. -/
def Event.isAnswer : Event → Bool
  | .call (.poll (.ok _)) => true
  | _ => false

/-- How often a poll of the keyboard was answered. Only reads of the status register poll, so it is
also how often such a read was complete. -/
def Journal.answers (j : Journal) : Nat := j.count Event.isAnswer

variable {σ α : Type}

/-! ## Machines that differ in one cell -/

/-- The same system, apart from what is stored in the keyboard's status register. -/
structure SameButStatus (s t : System σ) : Prop where
  registers : s.machine.registers = t.machine.registers
  state : s.machine.state = t.machine.state
  imageLoaded : s.machine.imageLoaded = t.machine.imageLoaded
  memory : ∀ a, a ≠ Machine.keyboardStatus → s.machine.memory.read a = t.machine.memory.read a
  channel : s.channel = t.channel

variable {s t : System σ}

theorem SameButStatus.symm (h : SameButStatus s t) : SameButStatus t s :=
  ⟨h.registers.symm, h.state.symm, h.imageLoaded.symm, fun a ha => (h.memory a ha).symm,
    h.channel.symm⟩

theorem SameButStatus.isRunning (h : SameButStatus s t) :
    s.machine.isRunning = t.machine.isRunning := by
  unfold Machine.isRunning
  rw [h.state]

/-- What is written to the status register takes the place of the difference. -/
theorem write_status_eq {m m' : Memory}
    (h : ∀ a, a ≠ Machine.keyboardStatus → m.read a = m'.read a) (w : Word) :
    m.write Machine.keyboardStatus w = m'.write Machine.keyboardStatus w := by
  apply Memory.ext_read
  intro a
  rw [Memory.read_write, Memory.read_write]
  split
  · rfl
  · next ha => exact h a (Ne.symm ha)

theorem polled_eq {m m' : Memory}
    (h : ∀ a, a ≠ Machine.keyboardStatus → m.read a = m'.read a) (key : Option Int) :
    polled m key = polled m' key := by
  cases key with
  | some key => exact congrArg (Memory.write · _ _) (write_status_eq h _)
  | none => exact write_status_eq h _

/-- What is stored in the status register is all that is missing to equality. -/
theorem SameButStatus.eq (h : SameButStatus s t)
    (hstatus : s.machine.memory.read Machine.keyboardStatus =
      t.machine.memory.read Machine.keyboardStatus) : s = t := by
  obtain ⟨⟨memory, registers, state, loaded⟩, channel⟩ := s
  obtain ⟨⟨memory', _, _, _⟩, _⟩ := t
  obtain ⟨rfl, rfl, rfl, hmemory, rfl⟩ := h
  obtain rfl : memory = memory' := by
    apply Memory.ext_read
    intro a
    by_cases ha : a = Machine.keyboardStatus
    · rw [ha]
      exact hstatus
    · exact hmemory a ha
  rfl

theorem SameButStatus.writeWord_status (h : SameButStatus s t) (w : Word) :
    writeWord Machine.keyboardStatus w s = writeWord Machine.keyboardStatus w t := by
  let stored (s : System σ) : System σ :=
    ⟨{ s.machine with memory := s.machine.memory.write Machine.keyboardStatus w }, s.channel⟩
  have hstored : SameButStatus (stored s) (stored t) := by
    refine ⟨h.registers, h.state, h.imageLoaded, fun a _ => ?_, h.channel⟩
    exact congrArg (Memory.read · a) (write_status_eq h.memory w)
  have hsame : stored s = stored t :=
    hstored.eq ((Memory.read_write_self ..).trans (Memory.read_write_self ..).symm)
  exact congrArg (EStateM.Result.ok ()) hsame

theorem SameButStatus.fetched {u v : System σ} (h : SameButStatus s t) (huv : SameButStatus u v) :
    SameButStatus (fetchedFrom s u) (fetchedFrom t v) := by
  refine ⟨?_, huv.state, huv.imageLoaded, huv.memory, huv.channel⟩
  show u.machine.registers.jump (s.machine.registers.pc + 1) =
    v.machine.registers.jump (t.machine.registers.pc + 1)
  rw [huv.registers, h.registers]

theorem loadFrom_but_status {m m' : Memory}
    (h : ∀ a, a ≠ Machine.keyboardStatus → m.read a = m'.read a) (origin : Int) (position : Nat)
    (ws : List Word) : ∀ a, a ≠ Machine.keyboardStatus →
      (m.loadFrom origin position ws).read a = (m'.loadFrom origin position ws).read a := by
  induction ws generalizing m m' position with
  | nil => exact h
  | cons w ws ih =>
    refine ih (fun a ha => ?_) (position + 1)
    rw [Memory.read_write, Memory.read_write, h a ha]

/-- Images may differ in the word that falls on the status register. -/
theorem sameButStatus_place {origin : Int} (before : List Word) (w w' : Word) (after : List Word)
    (h : Memory.address origin before.length = Machine.keyboardStatus) (m : Machine)
    (c : Channel σ) :
    SameButStatus ⟨m.place origin (before ++ w :: after), c⟩
      ⟨m.place origin (before ++ w' :: after), c⟩ := by
  have hword (w : Word) : m.memory.load origin (before ++ w :: after) =
      ((m.memory.loadFrom origin 0 before).write Machine.keyboardStatus w).loadFrom origin
        (before.length + 1) after := by
    unfold Memory.load
    rw [Memory.loadFrom_append, Nat.zero_add, Memory.loadFrom, h]
  refine ⟨rfl, rfl, rfl, ?_, rfl⟩
  show ∀ a, a ≠ Machine.keyboardStatus →
    (m.memory.load origin (before ++ w :: after)).read a =
      (m.memory.load origin (before ++ w' :: after)).read a
  rw [hword, hword]
  refine loadFrom_but_status (fun a ha => ?_) origin _ after
  rw [Memory.read_write_of_ne _ _ ha.symm, Memory.read_write_of_ne _ _ ha.symm]

/-! ## Lifting the veil -/

/-- Systems that differ in the status register at most, and in nothing once more than `k` polls have
been answered. -/
structure Veiled (k : Nat) (s t : System σ) : Prop extends SameButStatus s t where
  lifted : k < s.channel.journal.answers →
    s.machine.memory.read Machine.keyboardStatus = t.machine.memory.read Machine.keyboardStatus

variable {k : Nat}

theorem SameButStatus.veiled (h : SameButStatus s t) : Veiled s.channel.journal.answers s t :=
  ⟨h, fun hlt => absurd hlt (Nat.lt_irrefl _)⟩

/-- Computations that agree in spite of the difference come to the same in spite of it. -/
theorem SameButStatus.alike (h : SameButStatus s t) {x : MachineM σ α}
    (hx : ∀ k, Agree (fun _ => False) (Veiled k) x x) (hlast : ¬OutOfFuel (x s)) :
    Alike (Veiled s.channel.journal.answers) (x s) (x t) := by
  rcases (hx _).alike s t h.veiled with hlost | hout | halike
  · exact hlost.elim
  · exact absurd hout hlast
  · exact halike

theorem SameButStatus.outOfFuel_iff (h : SameButStatus s t) {x : MachineM σ α}
    (hx : ∀ k, Agree (fun _ => False) (Veiled k) x x) : OutOfFuel (x s) ↔ OutOfFuel (x t) := by
  constructor
  · intro hout
    refine Classical.byContradiction fun hlast => ?_
    exact hlast ((h.symm.alike hx hlast).outOfFuel_iff.2 hout)
  · intro hout
    refine Classical.byContradiction fun hlast => ?_
    exact hlast ((h.alike hx hlast).outOfFuel_iff.2 hout)

theorem Alike.sameButStatus {r r' : EStateM.Result Stop (System σ) α} (h : Alike (Veiled k) r r') :
    Alike SameButStatus r r' := h.mono fun _ _ h => h.toSameButStatus

/-- Where more than `k` polls have been answered there is no difference any more. -/
theorem Alike.eq_of_lifted {r r' : EStateM.Result Stop (System σ) α} (h : Alike (Veiled k) r r')
    (hk : k < (leftBy r).channel.journal.answers) : r = r' := by
  cases h with
  | ok a h => rw [h.eq (h.lifted hk)]
  | error e h => rw [h.eq (h.lifted hk)]

/-! ## Primitives -/

theorem Veiled.look {x : MachineM σ α} (look : System σ → α) (hx : ∀ s, x s = .ok (look s) s)
    (hlook : ∀ {s t : System σ}, SameButStatus s t → look s = look t) :
    Agree (fun _ => False) (Veiled k) x x :=
  Agree.of_ok look hx fun s t h => by rw [hx t, hlook h.toSameButStatus]

theorem Veiled.change {x : MachineM σ Unit} (change : Machine → Machine)
    (hx : ∀ s, x s = .ok () ⟨change s.machine, s.channel⟩)
    (hchange : ∀ {s t : System σ}, Veiled k s t →
      Veiled k ⟨change s.machine, s.channel⟩ ⟨change t.machine, t.channel⟩) :
    Agree (fun _ => False) (Veiled k) x x := by
  refine ⟨fun s u => by rw [hx s]; exact nofun, fun _ h => h, fun s t h => ?_⟩
  rw [hx s, hx t]
  exact .inr (.inr (.ok () (hchange h)))

/-- A call of the console that is no poll. -/
theorem Veiled.exchange (operation : σ → Reply σ α) {call : Except Fault α → Call}
    (hcall : ∀ answer, (Event.call (call answer)).isAnswer = false) :
    Agree (fun _ => False) (Veiled k) (atChannel (Channel.exchange operation call))
      (atChannel (Channel.exchange operation call)) := by
  refine ⟨atChannel_quiet _, fun _ h => h, ?_⟩
  rintro ⟨m, c⟩ ⟨m', _⟩ ⟨⟨hregisters, hstate, hloaded, hmemory, rfl⟩, hlifted⟩
  right; right
  have hafter : Veiled k ⟨m, c.after (operation c.device) call⟩
      ⟨m', c.after (operation c.device) call⟩ := by
    refine ⟨⟨hregisters, hstate, hloaded, hmemory, rfl⟩, fun h => hlifted ?_⟩
    rwa [Journal.answers, count_after_of_not (fun _ => rfl) c (hcall _)] at h
  cases hanswer : (operation c.device).answer with
  | ok a =>
    rw [atChannel_of_ok (exchange_of_ok call hanswer),
      atChannel_of_ok (exchange_of_ok call hanswer)]
    exact .ok a hafter
  | error f =>
    rw [atChannel_of_error (exchange_of_error call hanswer),
      atChannel_of_error (exchange_of_error call hanswer)]
    exact .error _ hafter

variable [Console σ]

/-- A read of the status register that is complete leaves no difference, and one that fails has
changed nothing. -/
theorem Veiled.readStatus (h : Veiled k s t) :
    Alike (Veiled k) (readWord Machine.keyboardStatus s) (readWord Machine.keyboardStatus t) := by
  obtain ⟨m, c⟩ := s
  obtain ⟨m', c'⟩ := t
  obtain ⟨⟨hregisters, hstate, hloaded, hmemory, hchannel⟩, hlifted⟩ := h
  obtain rfl : c = c' := hchannel
  cases hanswer : (Console.poll c.device).answer with
  | ok key =>
    have hpoll := exchange_of_ok (c := c) .poll hanswer
    have hpolled : polled m.memory key = polled m'.memory key := polled_eq hmemory key
    rw [readWord_status_of_ok (m := m) hpoll, readWord_status_of_ok (m := m') hpoll, hpolled]
    exact .ok _ ⟨⟨hregisters, hstate, hloaded, fun _ _ => rfl, rfl⟩, fun _ => rfl⟩
  | error f =>
    have hpoll := exchange_of_error (c := c) .poll hanswer
    rw [readWord_status_of_error (m := m) hpoll, readWord_status_of_error (m := m') hpoll]
    refine .error _ ⟨⟨hregisters, hstate, hloaded, hmemory, rfl⟩, fun h => hlifted ?_⟩
    rwa [Journal.answers, count_after_of_not (fun _ => rfl) c (by rw [hanswer]; rfl)] at h

theorem Veiled.readWord (a : Word) :
    Agree (fun _ => False) (Veiled k : System σ → System σ → Prop) (readWord a) (readWord a) := by
  refine ⟨readWord_quiet a, fun _ h => h, fun s t h => .inr (.inr ?_)⟩
  by_cases ha : a = Machine.keyboardStatus
  · subst ha
    exact h.readStatus
  · rw [readWord_of_ne ha, readWord_of_ne ha, h.memory a ha]
    exact .ok _ h

theorem veiled_simulation (k : Nat) :
    Simulation (fun _ : System σ => False) (Veiled k) where
  isRunning := Veiled.look _ (fun _ => rfl) SameButStatus.isRunning
  pc := Veiled.look _ (fun _ => rfl) fun h => by rw [h.registers]
  condition := Veiled.look _ (fun _ => rfl) fun h => by rw [h.registers]
  register r := Veiled.look _ (fun _ => rfl) fun h => by rw [h.registers]
  setRegisters change :=
    Veiled.change (fun m => { m with registers := change m.registers }) (fun _ => rfl) fun h =>
      ⟨⟨congrArg change h.registers, h.state, h.imageLoaded, h.memory, h.channel⟩, h.lifted⟩
  setState state :=
    Veiled.change (fun m => { m with state }) (fun _ => rfl) fun h =>
      ⟨⟨h.registers, rfl, h.imageLoaded, h.memory, h.channel⟩, h.lifted⟩
  readWord := Veiled.readWord
  writeWord a w :=
    Veiled.change (fun m => { m with memory := m.memory.write a w }) (fun _ => rfl) fun h => by
      refine ⟨⟨h.registers, h.state, h.imageLoaded, fun b hb => ?_, h.channel⟩, fun hk => ?_⟩
      · simp only [Memory.read_write, h.memory b hb]
      · simp only [Memory.read_write, h.lifted hk]
  read := Veiled.exchange _ fun _ => rfl
  write _ := Veiled.exchange _ fun _ => rfl
  flush := Veiled.exchange _ fun _ => rfl
  notePause := by
    refine ⟨atChannel_quiet _, fun _ h => h, fun s t h => .inr (.inr ?_)⟩
    obtain ⟨m, ⟨d, j⟩⟩ := s
    obtain ⟨m', c⟩ := t
    obtain ⟨⟨hregisters, hstate, hloaded, hmemory, hchannel⟩, hlifted⟩ := h
    obtain rfl : ⟨d, j⟩ = c := hchannel
    refine .ok () ⟨⟨hregisters, hstate, hloaded, hmemory, rfl⟩, fun h => hlifted ?_⟩
    have hpause : Journal.answers (j.push .pause) = Journal.answers j := count_push ..
    rwa [← hpause]

/-! ## Renewal -/

/-- The instruction is a store, and performed in `s` it stores to `a`. -/
inductive StoresTo (a : Word) (s : System σ) : Instruction → Prop where
  | store {source : Register} {offset : Word} (h : s.machine.registers.pc + offset = a) :
    StoresTo a s (.store source offset)
  /-- The address is read from memory, which may take a poll. -/
  | storeIndirect {source : Register} {offset : Word} {t : System σ}
      (h : readWord (s.machine.registers.pc + offset) s = .ok a t) :
    StoresTo a s (.storeIndirect source offset)
  | storeBase {source base : Register} {offset : Word}
      (h : s.machine.registers.get base + offset = a) :
    StoresTo a s (.storeBase source base offset)

/-- A step from `s` stores to the status register, or it completes a read of it, whatever becomes of
the step after that. -/
inductive RenewsStatus (fuel : Nat) (s : System σ) : Prop where
  | store (hrun : s.machine.state = .running) {w : Word} {u : System σ}
      (hfetch : readWord s.machine.registers.pc s = .ok w u)
      (hstore : StoresTo Machine.keyboardStatus (fetchedFrom s u) (.decode w))
  | read (h : s.channel.journal.answers < (leftBy (step fuel s)).channel.journal.answers)

/-- One of the first `n` steps from `s` renews the status register. -/
def RenewedWithin (fuel n : Nat) (s : System σ) : Prop :=
  ∃ k < n, ∃ u, steps fuel k s = .ok () u ∧ RenewsStatus fuel u

variable {fuel n : Nat}

theorem SameButStatus.readWord_eq_ok (h : SameButStatus s t) {a w : Word} {u : System σ}
    (hread : readWord a s = .ok w u) : ∃ v, readWord a t = .ok w v ∧ SameButStatus u v := by
  have hlast : ¬OutOfFuel (readWord a s) := by
    rw [hread]
    exact nofun
  have halike := (h.alike (fun _ => Veiled.readWord a) hlast).sameButStatus
  rw [hread] at halike
  generalize readWord a t = r at halike
  cases halike with
  | ok _ h => exact ⟨_, rfl, h⟩

/-- A store to the status register takes the difference away. -/
theorem SameButStatus.perform_store (h : SameButStatus s t) (address : Word) {i : Instruction}
    (hi : StoresTo Machine.keyboardStatus s i) :
    perform fuel address i s = perform fuel address i t := by
  cases hi with
  | @store source offset ha =>
    show writeWord (s.machine.registers.pc + offset) (s.machine.registers.get source) s =
      writeWord (t.machine.registers.pc + offset) (t.machine.registers.get source) t
    rw [← h.registers, ha]
    exact h.writeWord_status _
  | @storeIndirect source offset u hread =>
    obtain ⟨v, hread', huv⟩ := h.readWord_eq_ok hread
    rw [h.registers] at hread'
    have hs : perform fuel address (.storeIndirect source offset) s =
        writeWord Machine.keyboardStatus (u.machine.registers.get source) u :=
      bind_of_ok (x := readWord (s.machine.registers.pc + offset)) hread
    have ht : perform fuel address (.storeIndirect source offset) t =
        writeWord Machine.keyboardStatus (v.machine.registers.get source) v :=
      bind_of_ok (x := readWord (t.machine.registers.pc + offset)) hread'
    rw [hs, ht, ← huv.registers]
    exact huv.writeWord_status _
  | @storeBase source base offset ha =>
    show writeWord (s.machine.registers.get base + offset) (s.machine.registers.get source) s =
      writeWord (t.machine.registers.get base + offset) (t.machine.registers.get source) t
    rw [← h.registers, ha]
    exact h.writeWord_status _

/-- A step that renews the status register leaves no difference. -/
theorem SameButStatus.step_eq (h : SameButStatus s t) (hrenews : RenewsStatus fuel s)
    (hlast : ¬OutOfFuel (step fuel s)) : step fuel s = step fuel t := by
  cases hrenews with
  | @store hrun w u hfetch hstore =>
    obtain ⟨v, hfetch', huv⟩ := h.readWord_eq_ok hfetch
    rw [h.registers] at hfetch'
    have hcycle : cycle fuel s = cycle fuel t := by
      rw [cycle_of_fetched hfetch, cycle_of_fetched hfetch', ← h.registers]
      exact (h.fetched huv).perform_store _ hstore
    rw [step_eq_halting hrun, step_eq_halting (h.state ▸ hrun), hcycle]
  | read hanswers =>
    have halike := h.alike (fun k => (veiled_simulation k).step (Nat.le_refl fuel)) hlast
    exact halike.eq_of_lifted hanswers

/-- Only a machine that runs renews anything. -/
theorem RenewsStatus.isRunning (h : RenewsStatus fuel s) : s.machine.isRunning = true := by
  cases h with
  | store hrun =>
    unfold Machine.isRunning
    rw [hrun]
    rfl
  | read h =>
    rcases hstate : s.machine.state with _ | _
    · unfold Machine.isRunning
      rw [hstate]
      rfl
    · rw [step_of_halted hstate] at h
      exact absurd h (Nat.lt_irrefl _)

/-- Once the status register has been renewed the systems are the same. -/
theorem SameButStatus.steps_eq (h : SameButStatus s t) (hrenewed : RenewedWithin fuel n s)
    (hlast : ¬OutOfFuel (steps fuel n s)) : steps fuel n s = steps fuel n t := by
  obtain ⟨k, hk, u, hu, hrenews⟩ := hrenewed
  obtain ⟨m, rfl⟩ : ∃ m, n = k + (m + 1) := ⟨n - k - 1, by omega⟩
  have halike := h.alike (fun j => (veiled_simulation j).steps (Nat.le_refl fuel) k)
    (by rw [hu]; exact nofun)
  rw [hu] at halike
  generalize ht : steps fuel k t = r at halike
  cases halike with
  | @ok _ _ v huv =>
  have hrun : u.machine.isRunning = true := hrenews.isRunning
  have hrun' : v.machine.isRunning = true := huv.isRunning ▸ hrun
  have hs : steps fuel (k + (m + 1)) s = (do step fuel; steps fuel m : MachineM σ Unit) u := by
    rw [steps_add, bind_of_ok hu]
    exact guard_of_running _ hrun
  have ht' : steps fuel (k + (m + 1)) t = (do step fuel; steps fuel m : MachineM σ Unit) v := by
    rw [steps_add, bind_of_ok ht]
    exact guard_of_running _ hrun'
  have hstep : ¬OutOfFuel (step fuel u) := by
    rintro ⟨x, hx⟩
    exact hlast ⟨x, hs.trans (bind_of_error hx)⟩
  have hsame : step fuel u = step fuel v := huv.toSameButStatus.step_eq hrenews hstep
  rw [hs, ht']
  rcases hx : step fuel u with ⟨_, x⟩ | ⟨e, x⟩
  · rw [bind_of_ok hx, bind_of_ok (hsame.symm.trans hx)]
  · rw [bind_of_error hx, bind_of_error (hsame.symm.trans hx)]

/-! ## Runs -/

/-- Two systems that differ at most in what is stored in the status register come to the same ends.
Any number of steps, and a run, last for both or for neither. They leave systems that again differ
in this cell at most, stop for the same reason and have made the same calls of their console. Once
the status register has been renewed, they leave the same system. -/
theorem stored_status_unobserved (h : SameButStatus s t) :
    (∀ fuel n, (OutOfFuel (steps fuel n s) ↔ OutOfFuel (steps fuel n t)) ∧
      (¬OutOfFuel (steps fuel n s) →
        Alike SameButStatus (steps fuel n s) (steps fuel n t) ∧
          (RenewedWithin fuel n s → steps fuel n s = steps fuel n t))) ∧
      ∀ fuel, (OutOfFuel (run fuel s) ↔ OutOfFuel (run fuel t)) ∧
        (¬OutOfFuel (run fuel s) →
          Alike SameButStatus (run fuel s) (run fuel t) ∧
            (RenewedWithin fuel fuel s → run fuel s = run fuel t)) := by
  have hsteps (fuel n : Nat) (k : Nat) :
      Agree (fun _ => False) (Veiled k) (steps fuel n : MachineM σ Unit) (steps fuel n) :=
    (veiled_simulation k).steps (Nat.le_refl fuel) n
  have hrun (fuel : Nat) (k : Nat) :
      Agree (fun _ => False) (Veiled k) (run fuel : MachineM σ Unit) (run fuel) :=
    (veiled_simulation k).run (Nat.le_refl fuel)
  refine ⟨fun fuel n => ⟨h.outOfFuel_iff (hsteps fuel n), fun hlast => ?_⟩, fun fuel =>
    ⟨h.outOfFuel_iff (hrun fuel), fun hlast => ⟨(h.alike (hrun fuel) hlast).sameButStatus, ?_⟩⟩⟩
  · exact ⟨(h.alike (hsteps fuel n) hlast).sameButStatus, fun hrenewed => h.steps_eq hrenewed hlast⟩
  · intro hrenewed
    have hlast' : ¬OutOfFuel (run fuel t) := fun hout =>
      hlast ((h.outOfFuel_iff (hrun fuel)).2 hout)
    have hs : run fuel s = steps fuel fuel s := runFor_eq_steps hlast
    have ht : run fuel t = steps fuel fuel t := runFor_eq_steps hlast'
    rw [hs, ht]
    exact h.steps_eq hrenewed (hs ▸ hlast)

/-- A machine that loads from the status register and halts, with an image that puts `w` into it. -/
def askingStatus (w : Word) : System Queue :=
  ⟨((Machine.fresh 0).place 0 [0xa001, 0xf025, 0xfe00]).place 0xfe00 [w], { device := {} }⟩

theorem stored_status_unobserved_askingStatus :
    SameButStatus (askingStatus 0x8000) (askingStatus 0) ∧
      ¬OutOfFuel (run 3 (askingStatus 0x8000)) ∧
      RenewedWithin 3 3 (askingStatus 0x8000) ∧
      run 3 (askingStatus 0x8000) = run 3 (askingStatus 0) := by
  have haddress : Memory.address 0xfe00 0 = Machine.keyboardStatus := by decide
  have h : SameButStatus (askingStatus 0x8000) (askingStatus 0) :=
    sameButStatus_place [] 0x8000 0 [] haddress _ _
  have hlast : ¬OutOfFuel (run 3 (askingStatus 0x8000)) := by decide +kernel
  have hrenewed : RenewedWithin 3 3 (askingStatus 0x8000) :=
    ⟨0, by decide, askingStatus 0x8000, rfl, .read (by decide +kernel)⟩
  exact ⟨h, hlast, hrenewed, (((stored_status_unobserved h).2 3).2 hlast).2 hrenewed⟩

end LC3
