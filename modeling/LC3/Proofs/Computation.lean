import LC3.Machine.Execute

/-!
# Running computations

How a computation on a system comes to its outcome, one `bind` at a time, and what the primitives
that touch the channel come to. Proofs about runs use these equations and leave `do` blocks closed.
-/

namespace LC3

section Bind

variable {ε ρ α β : Type} {x : EStateM ε ρ α} {f : α → EStateM ε ρ β} {s t : ρ}

theorem bind_of_ok {a : α} (h : x s = .ok a t) : (x >>= f) s = f a t := by
  show EStateM.bind x f s = f a t
  simp only [EStateM.bind, h]

theorem bind_of_error {e : ε} (h : x s = .error e t) : (x >>= f) s = .error e t := by
  show EStateM.bind x f s = .error e t
  simp only [EStateM.bind, h]

theorem bind_eq_ok {b : β} : (x >>= f) s = .ok b t ↔ ∃ a u, x s = .ok a u ∧ f a u = .ok b t := by
  constructor
  · intro h
    rcases hx : x s with ⟨a, u⟩ | ⟨e, u⟩
    · exact ⟨a, u, rfl, (bind_of_ok hx).symm.trans h⟩
    · rw [bind_of_error hx] at h
      cases h
  · rintro ⟨a, u, hx, hf⟩
    rw [bind_of_ok hx, hf]

theorem bind_eq_error {e : ε} :
    (x >>= f) s = .error e t ↔ x s = .error e t ∨ ∃ a u, x s = .ok a u ∧ f a u = .error e t := by
  constructor
  · intro h
    rcases hx : x s with ⟨a, u⟩ | ⟨e', u⟩
    · exact .inr ⟨a, u, rfl, (bind_of_ok hx).symm.trans h⟩
    · rw [bind_of_error hx] at h
      cases h
      exact .inl rfl
  · rintro (hx | ⟨a, u, hx, hf⟩)
    · exact bind_of_error hx
    · rw [bind_of_ok hx, hf]

theorem bind_congr_left {x y : EStateM ε ρ α} (f : α → EStateM ε ρ β) (h : x s = y s) :
    (x >>= f) s = (y >>= f) s := by
  show EStateM.bind x f s = EStateM.bind y f s
  simp only [EStateM.bind, h]

theorem bind_congr_right {f g : α → EStateM ε ρ β} (h : ∀ a t, x s = .ok a t → f a t = g a t) :
    (x >>= f) s = (x >>= g) s := by
  rcases hx : x s with ⟨a, t⟩ | ⟨e, t⟩
  · rw [bind_of_ok hx, bind_of_ok hx]
    exact h a t hx
  · rw [bind_of_error hx, bind_of_error hx]

end Bind

namespace MachineM

variable {σ α : Type}

theorem atChannel_of_ok {use : ChannelM σ α} {m : Machine} {c c' : Channel σ} {a : α}
    (h : use c = .ok a c') : atChannel use ⟨m, c⟩ = .ok a ⟨m, c'⟩ := by
  simp only [atChannel, h]

theorem atChannel_of_error {use : ChannelM σ α} {m : Machine} {c c' : Channel σ} {f : Fault}
    (h : use c = .error f c') : atChannel use ⟨m, c⟩ = .error (.fault f) ⟨m, c'⟩ := by
  simp only [atChannel, h]

theorem atChannel_eq_ok {use : ChannelM σ α} {s t : System σ} {a : α} :
    atChannel use s = .ok a t ↔ use s.channel = .ok a t.channel ∧ t.machine = s.machine := by
  obtain ⟨m, c⟩ := s
  obtain ⟨m', d⟩ := t
  constructor
  · intro h
    rcases hc : use c with ⟨b, e⟩ | ⟨f, e⟩
    · rw [atChannel_of_ok hc] at h
      cases h
      exact ⟨rfl, rfl⟩
    · rw [atChannel_of_error hc] at h
      cases h
  · rintro ⟨hc, rfl⟩
    exact atChannel_of_ok hc

theorem atChannel_eq_error {use : ChannelM σ α} {s t : System σ} {f : Fault} :
    atChannel use s = .error (.fault f) t ↔
      use s.channel = .error f t.channel ∧ t.machine = s.machine := by
  obtain ⟨m, c⟩ := s
  obtain ⟨m', d⟩ := t
  constructor
  · intro h
    rcases hc : use c with ⟨b, e⟩ | ⟨f', e⟩
    · rw [atChannel_of_ok hc] at h
      cases h
    · rw [atChannel_of_error hc] at h
      cases h
      exact ⟨rfl, rfl⟩
  · rintro ⟨hc, rfl⟩
    exact atChannel_of_error hc

theorem atChannel_stop {use : ChannelM σ α} {s t : System σ} {e : Stop}
    (h : atChannel use s = .error e t) : ∃ f, e = .fault f := by
  obtain ⟨m, c⟩ := s
  rcases hc : use c with ⟨a, d⟩ | ⟨f, d⟩
  · rw [atChannel_of_ok hc] at h
    cases h
  · rw [atChannel_of_error hc] at h
    cases h
    exact ⟨f, rfl⟩

/-! ## Guards -/

theorem guard_of_running (x : MachineM σ Unit) {s : System σ} (h : s.machine.isRunning = true) :
    (do if ← isRunning then x : MachineM σ Unit) s = x s := by
  have hlook : (isRunning : MachineM σ Bool) s = .ok true s := congrArg (EStateM.Result.ok · s) h
  rw [bind_of_ok hlook]
  exact congrFun (if_pos rfl) s

theorem guard_of_halted (x : MachineM σ Unit) {s : System σ} (h : s.machine.isRunning = false) :
    (do if ← isRunning then x : MachineM σ Unit) s = .ok () s := by
  have hlook : (isRunning : MachineM σ Bool) s = .ok false s := congrArg (EStateM.Result.ok · s) h
  rw [bind_of_ok hlook]
  exact congrFun (if_neg Bool.false_ne_true) s

/-! ## Reading memory -/

variable [Console σ]

/-- A read looks at memory after the poll, if there is one. -/
theorem readWord_eq (a : Word) :
    (readWord a : MachineM σ Word) =
      if a = Machine.keyboardStatus then
        pollKeyboard >>= fun _ => cell a
      else cell a := rfl

theorem readWord_of_ne {a : Word} (ha : a ≠ Machine.keyboardStatus) (s : System σ) :
    readWord a s = .ok (s.machine.memory.read a) s := by
  rw [readWord_eq, if_neg ha]
  rfl

/-- Memory after a poll of the keyboard. -/
def polled (m : Memory) : Option Int → Memory
  | some key =>
    (m.write Machine.keyboardStatus Machine.keyReady).write Machine.keyboardData (.ofInt key)
  | none => m.write Machine.keyboardStatus 0

theorem readWord_status_of_ok {m : Machine} {c c' : Channel σ} {key : Option Int}
    (h : Channel.poll c = .ok key c') :
    readWord Machine.keyboardStatus ⟨m, c⟩ =
      .ok ((polled m.memory key).read Machine.keyboardStatus)
        ⟨{ m with memory := polled m.memory key }, c'⟩ := by
  have hp : pollKeyboard ⟨m, c⟩ = .ok () ⟨{ m with memory := polled m.memory key }, c'⟩ := by
    unfold pollKeyboard
    rw [bind_of_ok (atChannel_of_ok h)]
    cases key <;> rfl
  rw [readWord_eq, if_pos rfl, bind_of_ok hp]
  rfl

theorem readWord_status_of_error {m : Machine} {c c' : Channel σ} {f : Fault}
    (h : Channel.poll c = .error f c') :
    readWord Machine.keyboardStatus ⟨m, c⟩ = .error (.fault f) ⟨m, c'⟩ := by
  have hp : pollKeyboard ⟨m, c⟩ = .error (.fault f) ⟨m, c'⟩ :=
    bind_of_error (atChannel_of_error h)
  rw [readWord_eq, if_pos rfl]
  exact bind_of_error hp

/-- What a read comes to: the word in the cell, which for the keyboard's status register is the one
behind a poll, or the fault of that poll. -/
inductive ReadsTo (a : Word) (s : System σ) : EStateM.Result Stop (System σ) Word → Prop where
  | cell (ha : a ≠ Machine.keyboardStatus) : ReadsTo a s (.ok (s.machine.memory.read a) s)
  | keyboard (ha : a = Machine.keyboardStatus) {key : Option Int} {c : Channel σ}
      (h : Channel.poll s.channel = .ok key c) :
    ReadsTo a s (.ok ((polled s.machine.memory key).read a)
      ⟨{ s.machine with memory := polled s.machine.memory key }, c⟩)
  | failed (ha : a = Machine.keyboardStatus) {f : Fault} {c : Channel σ}
      (h : Channel.poll s.channel = .error f c) :
    ReadsTo a s (.error (.fault f) ⟨s.machine, c⟩)

theorem readWord_readsTo (a : Word) (s : System σ) : ReadsTo a s (readWord a s) := by
  by_cases ha : a = Machine.keyboardStatus
  · subst ha
    rcases h : Channel.poll s.channel with ⟨key, c⟩ | ⟨f, c⟩
    · rw [readWord_status_of_ok h]
      exact .keyboard rfl h
    · rw [readWord_status_of_error h]
      exact .failed rfl h
  · rw [readWord_of_ne ha]
    exact .cell ha

/-- Behind a poll of the keyboard only two words can be read. -/
theorem unpolled {a w : Word} {s t : System σ} (h : readWord a s = .ok w t) (hzero : w ≠ 0)
    (hready : w ≠ Machine.keyReady) : t = s := by
  have hread := readWord_readsTo a s
  rw [h] at hread
  cases hread with
  | cell ha => rfl
  | @keyboard ha key c hpoll =>
    subst ha
    cases key with
    | none => exact absurd (Memory.read_write_self ..) hzero
    | some key =>
      refine absurd ?_ hready
      exact (Memory.read_write_of_ne _ _ (by decide)).trans (Memory.read_write_self ..)

/-! ## Steps -/

variable {fuel : Nat} {s t : System σ}

theorem step_of_halted (h : s.machine.state = .halted) : step fuel s = .ok () s :=
  guard_of_halted _ (Machine.isRunning_eq_false_iff.2 h)

/-- The system in which an instruction is performed that was fetched in `s`, with `u` behind the
fetch. -/
def fetchedFrom (s u : System σ) : System σ :=
  ⟨{ u.machine with registers := u.machine.registers.jump (s.machine.registers.pc + 1) }, u.channel⟩

theorem cycle_of_fetched {w : Word} {u : System σ}
    (h : readWord s.machine.registers.pc s = .ok w u) :
    cycle fuel s = perform fuel s.machine.registers.pc (.decode w) (fetchedFrom s u) :=
  bind_of_ok h

theorem cycle_of_unfetched {e : Stop} {u : System σ}
    (h : readWord s.machine.registers.pc s = .error e u) : cycle fuel s = .error e u :=
  bind_of_error (x := readWord s.machine.registers.pc) h

/-- A trap stops early where its service does. -/
theorem perform_trap_eq_error {a : Word} {vector : BitVec 8} {e : Stop} :
    perform fuel a (.trap vector) s = .error e t ↔
      callService fuel vector.toNat a.toNat
        ⟨{ s.machine with registers := s.machine.registers.set 7 s.machine.registers.pc },
          s.channel⟩ = .error e t := by
  constructor
  · intro h
    rcases bind_eq_error.1 h with hpc | ⟨_, _, ⟨⟩, h⟩
    · cases hpc
    rcases bind_eq_error.1 h with hlink | ⟨_, _, ⟨⟩, h⟩
    · cases hlink
    rcases bind_eq_error.1 h with hcall | ⟨_, _, -, hstate⟩
    · exact hcall
    · cases hstate
  · intro h
    exact bind_of_error (x := callService fuel vector.toNat a.toNat) h

/-- What a step comes to when its cycle comes to `r`: a fault halts the machine. -/
def halting : EStateM.Result Stop (System σ) Unit → EStateM.Result Stop (System σ) Unit
  | .error (.fault f) t => .error (.fault f) ⟨{ t.machine with state := .halted }, t.channel⟩
  | r => r

theorem step_eq_halting (h : s.machine.state = .running) :
    step fuel s = halting (cycle fuel s) := by
  have hstep : step fuel s =
      Stop.catchFault (cycle fuel) (fun f => do setState .halted; fail f) s :=
    guard_of_running _ (Machine.isRunning_iff.2 h)
  rw [hstep]
  unfold Stop.catchFault
  rcases cycle fuel s with ⟨_, u⟩ | ⟨f | _ | _, u⟩ <;> rfl

theorem step_of_fault (h : s.machine.state = .running) {f : Fault}
    (hc : cycle fuel s = .error (.fault f) t) :
    step fuel s = .error (.fault f) ⟨{ t.machine with state := .halted }, t.channel⟩ := by
  rw [step_eq_halting h, hc]
  rfl

theorem step_of_ok (h : s.machine.state = .running) (hc : cycle fuel s = .ok () t) :
    step fuel s = .ok () t := by
  rw [step_eq_halting h, hc]
  rfl

theorem cycle_of_step_fault (h : s.machine.state = .running) {f : Fault}
    (hs : step fuel s = .error (.fault f) t) :
    ∃ u, cycle fuel s = .error (.fault f) u ∧
      t = ⟨{ u.machine with state := .halted }, u.channel⟩ := by
  rw [step_eq_halting h] at hs
  rcases hc : cycle fuel s with ⟨_, u⟩ | ⟨f' | _ | _, u⟩ <;> rw [hc] at hs <;> cases hs
  exact ⟨u, rfl, rfl⟩

theorem cycle_of_step_outOfFuel (h : s.machine.state = .running)
    (hs : step fuel s = .error .outOfFuel t) : cycle fuel s = .error .outOfFuel t := by
  rw [step_eq_halting h] at hs
  rcases hc : cycle fuel s with ⟨_, u⟩ | ⟨f | _ | _, u⟩ <;> rw [hc] at hs <;> cases hs
  rfl

theorem cycle_of_step_ok (h : s.machine.state = .running) (hs : step fuel s = .ok () t) :
    cycle fuel s = .ok () t := by
  rw [step_eq_halting h] at hs
  rcases hc : cycle fuel s with ⟨_, u⟩ | ⟨f | _ | _, u⟩ <;> rw [hc] at hs <;> cases hs
  rfl

/-! ## Traps -/

/-- The next instruction is `i`. -/
def Fetches (s : System σ) (i : Instruction) : Prop :=
  ∃ w u, readWord s.machine.registers.pc s = .ok w u ∧ .decode w = i

/-- The system behind the link of a trap. -/
def linked (s : System σ) : System σ :=
  ⟨{ s.machine with registers := s.machine.registers.set 7 s.machine.registers.pc }, s.channel⟩

/-- The system in which the service of a trap at the program counter starts. -/
def trapped (s : System σ) : System σ := linked (fetchedFrom s s)

variable {vector : BitVec 8} {service : Service}

/-- The word of a trap is read without a poll. -/
theorem Fetches.unpolled (h : Fetches s (.trap vector)) :
    ∃ w, readWord s.machine.registers.pc s = .ok w s ∧
      Instruction.decode w = .trap vector := by
  obtain ⟨w, u, hread, htrap⟩ := h
  have hunpolled : u = s := by
    refine MachineM.unpolled hread ?_ ?_
    · rintro rfl
      cases htrap
    · rintro rfl
      cases htrap
  exact ⟨w, hunpolled ▸ hread, htrap⟩

theorem cycle_of_trap (h : Fetches s (.trap vector)) :
    cycle fuel s = (do
      setState (← callService fuel vector.toNat s.machine.registers.pc.toNat) : MachineM σ Unit)
        (trapped s) := by
  obtain ⟨w, hread, htrap⟩ := h.unpolled
  rw [cycle_of_fetched hread, htrap]
  rfl

theorem cycle_of_service (h : Fetches s (.trap vector))
    (hservice : Service.ofVector? vector.toNat = some service) :
    cycle fuel s = (do setState (← serve fuel service) : MachineM σ Unit) (trapped s) := by
  rw [cycle_of_trap h, callService, hservice]

/-- A trap that is complete leaves what its service leaves, with the run state that it ends with. -/
theorem step_service_eq_ok (hrun : s.machine.state = .running) (h : Fetches s (.trap vector))
    (hservice : Service.ofVector? vector.toNat = some service) (hstep : step fuel s = .ok () t) :
    ∃ q u, serve fuel service (trapped s) = .ok q u ∧
      t = ⟨{ u.machine with state := q }, u.channel⟩ := by
  have hcycle := cycle_of_step_ok hrun hstep
  rw [cycle_of_service h hservice] at hcycle
  obtain ⟨q, u, hserve, hstate⟩ := bind_eq_ok.1 hcycle
  cases hstate
  exact ⟨q, u, hserve, rfl⟩

end MachineM

end LC3
