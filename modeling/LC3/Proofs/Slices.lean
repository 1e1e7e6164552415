import LC3.Proofs.Halting

/-!
# Runs in slices

A run in slices does the steps of a plain run, with breaks between them. On a console that is blind
to flushes a break changes nothing that the program could notice, so both runs end alike, and it
does not matter how long the slices are.

The fuel of the two runs counts different things. `n` slices of `size` steps are compared with
`n * size` steps, once with the fuel on the one side and once on the other.
-/

namespace LC3

open MachineM

variable {σ : Type} [Console σ]

/-- A break between two slices that no signal waits for. -/
def breakTime : MachineM σ Unit := do
  atChannel Channel.flush
  pause false

/-- One more slice is some steps, a break, and the slices after it. -/
theorem slicesFor_succ (fuel size n : Nat) :
    (slicesFor fuel size false (n + 1) : MachineM σ Unit) =
      (do if ← isRunning then do steps fuel size; breakTime; slicesFor fuel size false n) := by
  have hslice : (slice fuel size false : MachineM σ Unit) = (do steps fuel size; breakTime) := rfl
  rw [(slicesFor_loops fuel size false).succ, hslice]
  simp only [bind_assoc]

theorem runFor_slice (fuel size n : Nat) :
    (runFor fuel ((n + 1) * size) : MachineM σ Unit) =
      (do if ← isRunning then do steps fuel size; runFor fuel (n * size)) := by
  rw [Nat.succ_mul, Nat.add_comm, runFor_add]
  exact ((steps_guarded fuel size).bind ((runFor_loops fuel).guarded _)).eq.symm

variable {fuel fuel' size : Nat} {s t : System σ}

theorem breakTime_quiet : Quiet (breakTime : MachineM σ Unit) :=
  (atChannel_quiet _).bind fun _ => (atChannel_quiet _).bind fun _ _ _ => nofun

/-! ## Unnoticed breaks -/

section Unnoticed

variable {R : System σ → System σ → Prop}

theorem slicesFor_agree (hsim : StepSimulation (fun _ => False) R)
    (hbreak : ∀ s t, R s t → ∃ u, breakTime s = .ok () u ∧ R u t) (hfuel : fuel ≤ fuel') (n : Nat) :
    Agree (fun _ => False) R (slicesFor fuel size false n) (runFor fuel' (n * size)) := by
  induction n with
  | zero =>
    rw [Nat.zero_mul]
    exact hsim.isRunning.bind fun _ => Agree.ite (Agree.outOfFuel _) (Agree.pure ())
  | succ n ih =>
    rw [slicesFor_succ, runFor_slice]
    refine hsim.isRunning.bind fun _ => Agree.ite ?_ (Agree.pure ())
    refine (hsim.steps hfuel size).bind fun _ => ?_
    exact Agree.bind_left breakTime_quiet (fun _ h => h) hbreak ih

theorem runFor_agree (hsim : StepSimulation (fun _ => False) R)
    (hbreak : ∀ s t, R s t → ∃ u, breakTime t = .ok () u ∧ R s u) (hfuel : fuel ≤ fuel') (n : Nat) :
    Agree (fun _ => False) R (runFor fuel (n * size)) (slicesFor fuel' size false n) := by
  induction n with
  | zero =>
    rw [Nat.zero_mul]
    exact hsim.isRunning.bind fun _ => Agree.ite (Agree.outOfFuel _) (Agree.pure ())
  | succ n ih =>
    rw [slicesFor_succ, runFor_slice]
    refine hsim.isRunning.bind fun _ => Agree.ite ?_ (Agree.pure ())
    refine (hsim.steps hfuel size).bind fun _ => ?_
    exact Agree.bind_right hbreak ih

/-- The fuel that lasts for a run lasts for the run in slices. -/
theorem alike_of_unnoticed (hsim : StepSimulation (fun _ => False) R)
    (hbreak : ∀ s t, R s t → ∃ u, breakTime t = .ok () u ∧ R s u) (hst : R s t) (hsize : 1 ≤ size)
    (hlast : ¬OutOfFuel (run fuel s)) : Alike R (run fuel s) (runInSlices size fuel t) := by
  have hle : fuel ≤ fuel * size := Nat.le_mul_of_pos_right fuel hsize
  have hmore : runFor fuel (fuel * size) s = run fuel s :=
    runFor_of_lasting (Nat.le_refl fuel) hle hlast
  rcases (runFor_agree hsim hbreak (Nat.le_refl fuel) fuel).alike s t hst with hlost | hout | halike
  · exact hlost.elim
  · exact absurd (hmore ▸ hout) hlast
  · exact hmore ▸ halike

end Unnoticed

variable [FlushBlind σ]

theorem breakTime_unnoticed (s : System σ) :
    ∃ u, breakTime s = .ok () u ∧ OnSameMachine SameTalk u s := by
  obtain ⟨m, c⟩ := s
  have hflush : Channel.flush c = .ok () (c.after (Console.flush c.device) fun _ => .flush) :=
    exchange_of_ok _ (FlushBlind.answer_flush c.device)
  let d := c.after (Console.flush c.device) fun _ => .flush
  refine ⟨⟨m, ⟨d.device, d.journal.push .pause⟩⟩, ?_, rfl, ?_⟩
  · unfold breakTime
    rw [bind_of_ok (atChannel_of_ok hflush)]
    rfl
  · exact (sameTalk_pause _ _).trans (sameTalk_flush c)

theorem OnSameMachine.symm (h : OnSameMachine SameTalk s t) : OnSameMachine SameTalk t s :=
  ⟨h.machine.symm, h.channel.symm⟩

theorem OnSameMachine.trans {u : System σ} (h : OnSameMachine SameTalk s t)
    (h' : OnSameMachine SameTalk t u) : OnSameMachine SameTalk s u :=
  ⟨h.machine.trans h'.machine, h.channel.trans h'.channel⟩

/-! ## The comparison -/

theorem slices_of_lasting (hsize : 1 ≤ size) (hlast : ¬OutOfFuel (run fuel s)) :
    Alike (OnSameMachine SameTalk) (run fuel s) (runInSlices size fuel s) := by
  have hsim := (sameTalk_simulation (σ := σ)).stepSimulation
  refine alike_of_unnoticed hsim (fun u t hut => ?_) ⟨rfl, SameTalk.refl _⟩ hsize hlast
  obtain ⟨v, hv, hvt⟩ := breakTime_unnoticed t
  exact ⟨v, hv, hut.trans hvt.symm⟩

theorem slices_end_iff (hsize : 1 ≤ size) : Ends (runInSlices size) s ↔ Ends run s := by
  constructor
  · rintro ⟨r, hr⟩
    have hbreak : ∀ u t : System σ, OnSameMachine SameTalk u t →
        ∃ v, breakTime u = .ok () v ∧ OnSameMachine SameTalk v t := fun u t hut => by
      obtain ⟨v, hv, hvu⟩ := breakTime_unnoticed u
      exact ⟨v, hv, hvu.trans hut⟩
    have hagree : ∀ fuel, ∃ fuel', Agree (fun _ => False) (OnSameMachine SameTalk)
        (runInSlices size fuel) (run fuel' : MachineM σ Unit) := fun fuel =>
      ⟨fuel * size, slicesFor_agree (sameTalk_simulation (σ := σ)).stepSimulation hbreak
        (Nat.le_mul_of_pos_right fuel hsize) fuel⟩
    obtain ⟨r', hr', -⟩ := hr.agree hagree ⟨rfl, SameTalk.refl _⟩
    exact ⟨r', hr'⟩
  · rintro ⟨_, ⟨fuel, rfl⟩, hlast⟩
    have halike := slices_of_lasting hsize hlast
    exact ⟨_, endsIn_of_lasting fun hout => hlast (halike.outOfFuel_iff.2 hout)⟩

theorem slices_alike (hsize : 1 ≤ size) {r r' : EStateM.Result Stop (System σ) Unit}
    (hr : EndsIn run s r) (hr' : EndsIn (runInSlices size) s r') :
    Alike (OnSameMachine SameTalk) r r' := by
  obtain ⟨⟨fuel, rfl⟩, hlast⟩ := hr
  have halike := slices_of_lasting hsize hlast
  have hlast' : ¬OutOfFuel (runInSlices size fuel s) := fun h => hlast (halike.outOfFuel_iff.2 h)
  rw [hr'.unique (runInSlices_steady size) (endsIn_of_lasting hlast')]
  exact halike

theorem slice_flushed {signalWaiting : Bool} (h : slice fuel size signalWaiting s = .ok () t) :
    FlushBlind.held t.channel.device = [] := by
  obtain ⟨_, u, -, hrest⟩ := bind_eq_ok.1 h
  obtain ⟨_, v, hflush, hpause⟩ := bind_eq_ok.1 hrest
  cases signalWaiting with
  | true => cases hpause
  | false =>
    cases hpause
    exact (flushed_of_ok (atChannel_eq_ok.1 hflush).1).2

/-- A complete run in slices holds nothing back if nothing was held back before it. -/
theorem slices_held {n : Nat} {signalWaiting : Bool} (hs : FlushBlind.held s.channel.device = [])
    (h : slicesFor fuel size signalWaiting n s = .ok () t) :
    FlushBlind.held t.channel.device = [] :=
  (slicesFor_loops fuel size signalWaiting).ok
    (Q := fun s : System σ => FlushBlind.held s.channel.device = [])
    (fun _ _ _ => slice_flushed) hs h

/-- A run in slices holds nothing back at its end. -/
theorem slices_flushed {n : Nat} (hrun : s.machine.isRunning = true)
    (h : slicesFor fuel size false n s = .ok () t) : FlushBlind.held t.channel.device = [] := by
  cases n with
  | zero =>
    rw [(slicesFor_loops fuel size false).zero, guard_of_running _ hrun] at h
    cases h
  | succ n =>
    rw [(slicesFor_loops fuel size false).succ, guard_of_running _ hrun] at h
    obtain ⟨_, u, hslice, hrest⟩ := bind_eq_ok.1 h
    exact slices_held (slice_flushed hslice) hrest

/-! ## The first slice -/

omit [FlushBlind σ] in
theorem slices_of_steps_error (hrun : s.machine.isRunning = true) {e : Stop}
    (h : steps fuel size s = .error e t) (signalWaiting : Bool) (n : Nat) :
    slicesFor fuel size signalWaiting (n + 1) s = .error e t := by
  rw [(slicesFor_loops fuel size signalWaiting).succ, guard_of_running _ hrun]
  exact bind_of_error (bind_of_error h)

def Channel.flushed (c : Channel σ) : Channel σ := c.after (Console.flush c.device) fun _ => .flush

/-- A machine that has given control back behind a flush. -/
def atBreak (s : System σ) : System σ :=
  ⟨s.machine, ⟨s.channel.flushed.device, s.channel.flushed.journal.push .pause⟩⟩

theorem slice_of_steps (h : steps fuel size s = .ok () t) (signalWaiting : Bool) :
    slice fuel size signalWaiting s = pause signalWaiting ⟨t.machine, t.channel.flushed⟩ := by
  have hflush : Channel.flush t.channel = .ok () t.channel.flushed :=
    exchange_of_ok _ (FlushBlind.answer_flush t.channel.device)
  unfold slice
  rw [bind_of_ok h, bind_of_ok (atChannel_of_ok hflush)]

/-- A waiting signal gets through in the first break. -/
theorem slices_signalled (hrun : s.machine.isRunning = true) (h : steps fuel size s = .ok () t)
    (n : Nat) : slicesFor fuel size true (n + 1) s = .error .signal (atBreak t) := by
  rw [(slicesFor_loops fuel size true).succ, guard_of_running _ hrun]
  exact bind_of_error (slice_of_steps h true)

theorem slices_resumed (hrun : s.machine.isRunning = true) (h : steps fuel size s = .ok () t)
    (n : Nat) : slicesFor fuel size false (n + 1) s = slicesFor fuel size false n (atBreak t) := by
  rw [(slicesFor_loops fuel size false).succ, guard_of_running _ hrun]
  exact bind_of_ok (slice_of_steps h false)

/-! ## Slices of any length -/

/-- A run in slices ends if and only if the plain run does, and both leave the same machine, have
had the same talk with their consoles, have produced the same bytes and stop for the same reason. So
it does not matter how long the slices are. -/
theorem slices_end_as_run (s : System σ) {size : Nat} (hsize : 1 ≤ size) :
    (Ends (runInSlices size) s ↔ Ends run s) ∧
      (∀ r r', EndsIn (runInSlices size) s r → EndsIn run s r' →
        Alike (OnSameMachine SameTalk) r r') ∧
      ∀ size', 1 ≤ size' →
        (Ends (runInSlices size) s ↔ Ends (runInSlices size') s) ∧
          ∀ r r', EndsIn (runInSlices size) s r → EndsIn (runInSlices size') s r' →
            Alike (OnSameMachine SameTalk) r r' := by
  refine ⟨slices_end_iff hsize, ?_, fun size' hsize' => ⟨?_, ?_⟩⟩
  · intro r r' hr hr'
    exact (slices_alike hsize hr' hr).symm fun _ _ => OnSameMachine.symm
  · rw [slices_end_iff hsize, slices_end_iff hsize']
  · intro r r' hr hr'
    obtain ⟨r'', hr''⟩ := (slices_end_iff hsize).1 ⟨r, hr⟩
    have hleft := (slices_alike hsize hr'' hr).symm fun _ _ => OnSameMachine.symm
    have hright := slices_alike hsize' hr'' hr'
    refine Alike.trans ?_ hleft hright
    exact fun _ _ _ => OnSameMachine.trans

/-- Reads a key, shows it and halts. -/
def echo : System Queue :=
  ⟨(Machine.fresh 0).place 0 [0xf020, 0xf021, 0xf025], { device := .ofInput "A" }⟩

theorem slices_end_as_run_echo :
    Ends (runInSlices 2) echo ∧ ∀ r r', EndsIn (runInSlices 2) echo r → EndsIn run echo r' →
      Alike (OnSameMachine SameTalk) r r' := by
  have hrun : ¬OutOfFuel (run 6 echo) := by decide +kernel
  obtain ⟨hends, halike, -⟩ := slices_end_as_run echo (show 1 ≤ 2 by decide)
  exact ⟨hends.2 ⟨_, endsIn_of_lasting hrun⟩, halike⟩

end LC3
