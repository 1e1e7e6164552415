import LC3.Proofs.Absorption
import LC3.Proofs.Moves

/-!
# The schedule of a run in slices

A run in slices executes the instructions of the plain run. Behind every so many of them, and behind
the last one unless it throws, it flushes the console and gives control back.

The console need not be any in particular. It only has to take every flush, and must not let its
other answers depend on them.
-/

namespace LC3

open MachineM

variable {σ : Type} [Console σ] {fuel k n : Nat} {s t : System σ}

/-! ## Schedules -/

/-- `Schedule k failed calls moves`: these moves are instructions with these calls, with a flush and
a yield behind every `k` of them. There may be fewer before the last yield, and there is none behind
an instruction that failed. -/
inductive Schedule (k : Nat) : Bool → List (List Call) → List Move → Prop where
  /-- Nothing is left, or no more slices are looked at. -/
  | nil : Schedule k false [] []
  /-- A slice in which the machine was halted. -/
  | last {calls : List (List Call)} (hpos : calls ≠ []) (hle : calls.length ≤ k) :
      Schedule k false calls (calls.map .instruction ++ [.flush, .yield])
  /-- A slice in which the last instruction failed. -/
  | failed {calls : List (List Call)} (hpos : calls ≠ []) (hle : calls.length ≤ k) :
      Schedule k true calls (calls.map .instruction)
  /-- A full slice and those behind it. -/
  | full {failed : Bool} {calls rest : List (List Call)} {moves : List Move}
      (hfull : calls.length = k) (h : Schedule k failed rest moves) :
      Schedule k failed (calls ++ rest) (calls.map .instruction ++ .flush :: .yield :: moves)

def Move.isInstruction : Move → Bool
  | .instruction _ => true
  | _ => false

def Move.isFlush : Move → Bool
  | .flush => true
  | _ => false

def Move.isYield : Move → Bool
  | .yield => true
  | _ => false

/-- The number of breaks of a run that executes `n` instructions in slices of `k`, the last of which
failed or did not. -/
def breaks (k n : Nat) (failed : Bool) : Nat := if failed then (n - 1) / k else (n + k - 1) / k

theorem breaks_le {n : Nat} (hn : n ≤ k) (hpos : 1 ≤ n) (failed : Bool) :
    breaks k n failed = if failed then 0 else 1 := by
  have hdiv : (n - 1) / k = 0 := Nat.div_eq_of_lt (by omega)
  cases failed with
  | true => exact hdiv
  | false =>
    have hone : n + k - 1 = (n - 1) + k := by omega
    show (n + k - 1) / k = 1
    rw [hone, Nat.add_div_right _ (by omega), hdiv]

theorem breaks_add (hk : 1 ≤ k) (n : Nat) {failed : Bool} (hpos : failed = true → 1 ≤ n) :
    breaks k (k + n) failed = breaks k n failed + 1 := by
  cases failed with
  | true =>
    have hone : k + n - 1 = (n - 1) + k := by
      have := hpos rfl
      omega
    show (k + n - 1) / k = (n - 1) / k + 1
    rw [hone, Nat.add_div_right _ hk]
  | false =>
    have hone : k + n + k - 1 = (n + k - 1) + k := by omega
    show (k + n + k - 1) / k = (n + k - 1) / k + 1
    rw [hone, Nat.add_div_right _ hk]

namespace Schedule

variable {failed : Bool} {calls : List (List Call)} {moves : List Move}

theorem ne_nil (h : Schedule k true calls moves) : calls ≠ [] := by
  generalize hfailed : true = failed at h
  induction h with
  | nil => cases hfailed
  | last _ _ => cases hfailed
  | failed hpos _ => exact hpos
  | full _ _ ih => exact List.append_ne_nil_of_right_ne_nil _ (ih hfailed)

/-- What there is once in each break is there as often as there are breaks. -/
theorem countP (h : Schedule k failed calls moves) (hk : 1 ≤ k) {p : Move → Bool}
    (hinstruction : ∀ c, p (.instruction c) = false) (hbreak : [Move.flush, .yield].countP p = 1) :
    moves.countP p = breaks k calls.length failed := by
  have hnone (calls : List (List Call)) : (calls.map Move.instruction).countP p = 0 := by
    rw [List.countP_map]
    exact List.countP_eq_zero.2 fun c _ => Bool.eq_false_iff.1 (hinstruction c)
  induction h with
  | nil =>
    have hdiv : (0 + k - 1) / k = 0 := Nat.div_eq_of_lt (by omega)
    exact hdiv.symm
  | last hpos hle =>
    rw [List.countP_append, hnone, hbreak, breaks_le hle (List.length_pos_iff.2 hpos)]
    rfl
  | failed hpos hle =>
    rw [hnone, breaks_le hle (List.length_pos_iff.2 hpos)]
    rfl
  | @full failed calls rest moves hfull h ih =>
    have hsplit : Move.flush :: .yield :: moves = [.flush, .yield] ++ moves := rfl
    have hpos : failed = true → 1 ≤ rest.length := fun hfailed =>
      List.length_pos_iff.2 (hfailed ▸ h).ne_nil
    rw [List.countP_append, hnone, hsplit, List.countP_append, hbreak, ih, List.length_append,
      hfull, breaks_add hk _ hpos]
    omega

/-- Without the breaks the instructions are left. -/
theorem filter (h : Schedule k failed calls moves) :
    moves.filter Move.isInstruction = calls.map .instruction := by
  have hall (calls : List (List Call)) : (calls.map Move.instruction).filter Move.isInstruction =
      calls.map .instruction := List.filter_eq_self.2 fun move hmove => by
    obtain ⟨c, -, rfl⟩ := List.mem_map.1 hmove
    rfl
  induction h with
  | nil => rfl
  | last _ _ =>
    rw [List.filter_append, hall]
    exact List.append_nil _
  | failed _ _ => exact hall _
  | full _ _ ih =>
    rw [List.filter_append, hall, List.map_append, ← ih]
    rfl

end Schedule

/-! ## Consoles that take every flush -/

/-- The same answer, and devices that are the same. -/
structure SameAnswer {α : Type} (Same : σ → σ → Prop) (r r' : Reply σ α) : Prop where
  answer : r.answer = r'.answer
  device : Same r.device r'.device

omit [Console σ] in
theorem SameAnswer.exchanges {α : Type} {Same : σ → σ → Prop} {operation : σ → Reply σ α}
    {call : Except Fault α → Call}
    (h : ∀ {d e : σ}, Same d e → SameAnswer Same (operation d) (operation e)) :
    Exchanges (fun _ => False) (fun c d : Channel σ => Same c.device d.device) operation operation
      call := by
  refine ⟨fun _ h => h, fun c d hcd => .inr ?_⟩
  obtain ⟨hanswer, hdevice⟩ := h hcd
  exact ⟨hanswer, hdevice⟩

/-- A console takes every flush, and flushes make no difference to anything else that it answers.
Devices are the same if they cannot be told apart by that. -/
structure IgnoresFlush (Same : σ → σ → Prop) : Prop where
  equivalence : Equivalence Same
  read {d e : σ} (h : Same d e) : SameAnswer Same (Console.read d) (Console.read e)
  poll {d e : σ} (h : Same d e) : SameAnswer Same (Console.poll d) (Console.poll e)
  write {d e : σ} (h : Same d e) (code : Int) :
    SameAnswer Same (Console.write code d) (Console.write code e)
  answer_flush (d : σ) : (Console.flush d).answer = .ok ()
  flush (d : σ) : Same (Console.flush d).device d

theorem ignoresFlush_of_flushBlind [FlushBlind σ] :
    IgnoresFlush fun d e : σ => FlushBlind.input d = FlushBlind.input e where
  equivalence := ⟨fun _ => rfl, Eq.symm, Eq.trans⟩
  read h := ⟨(FlushBlind.sameRead h).answer, (FlushBlind.sameRead h).input⟩
  poll h := ⟨(FlushBlind.samePoll h).answer, (FlushBlind.samePoll h).input⟩
  write h code := ⟨(FlushBlind.sameWrite h code).answer, (FlushBlind.sameWrite h code).input⟩
  answer_flush := FlushBlind.answer_flush
  flush := FlushBlind.input_flush

variable {Same : σ → σ → Prop}

/-- The same devices, and the same calls behind different beginnings. -/
structure SameCalls (Same : σ → σ → Prop) (before before' : List Call) (c d : Channel σ) :
    Prop where
  device : Same c.device d.device
  calls : ∃ made, c.journal.calls = before ++ made ∧ d.journal.calls = before' ++ made

omit [Console σ] in
theorem SameCalls.exchanges {α : Type} {before before' : List Call} {operation : σ → Reply σ α}
    {call : Except Fault α → Call}
    (h : ∀ {d e : σ}, Same d e → SameAnswer Same (operation d) (operation e)) :
    Exchanges (fun _ => False) (SameCalls Same before before') operation operation call := by
  refine ⟨fun _ h => h, fun c d hcd => .inr ?_⟩
  obtain ⟨hanswer, hdevice⟩ := h hcd.device
  obtain ⟨made, hc, hd⟩ := hcd.calls
  refine ⟨hanswer, hdevice, made ++ [call (operation c.device).answer], ?_, ?_⟩
  · rw [calls_after, hc, List.append_assoc]
  · rw [calls_after, hd, List.append_assoc, hanswer]

namespace IgnoresFlush

variable (h : IgnoresFlush Same)

include h

theorem flush_same {d e : σ} (hde : Same d e) :
    SameAnswer Same (Console.flush d) (Console.flush e) where
  answer := (h.answer_flush d).trans (h.answer_flush e).symm
  device :=
    h.equivalence.trans (h.equivalence.trans (h.flush d) hde) (h.equivalence.symm (h.flush e))

theorem sameCalls_simulation (before before' : List Call) :
    ConsoleSimulation (fun _ => False) (SameCalls Same before before') where
  read := SameCalls.exchanges h.read
  poll := SameCalls.exchanges h.poll
  write code := SameCalls.exchanges fun hde => h.write hde code
  flush := SameCalls.exchanges h.flush_same

theorem sameDevice_simulation :
    ConsoleSimulation (fun _ => False) (fun c d : Channel σ => Same c.device d.device) where
  read := SameAnswer.exchanges h.read
  poll := SameAnswer.exchanges h.poll
  write code := SameAnswer.exchanges fun hde => h.write hde code
  flush := SameAnswer.exchanges h.flush_same

end IgnoresFlush

/-! ## The comparison -/

/-- The same machine on devices that are the same. -/
abbrev OnSameDevice (Same : σ → σ → Prop) : System σ → System σ → Prop :=
  OnSameMachine fun c d => Same c.device d.device

namespace IgnoresFlush

variable {m : Nat} (h : IgnoresFlush Same) (hst : OnSameDevice Same s t)

include h hst

theorem step_same (hlast : ¬OutOfFuel (step fuel s)) :
    madeBy (step fuel) s = madeBy (step fuel) t ∧
      Alike (OnSameDevice Same) (step fuel s) (step fuel t) := by
  have hsim := (h.sameCalls_simulation s.channel.journal.calls
    t.channel.journal.calls).stepSimulation.step (Nat.le_refl fuel)
  have hstart :
      OnSameMachine (SameCalls Same s.channel.journal.calls t.channel.journal.calls) s t :=
    ⟨hst.machine, hst.channel, [], (List.append_nil _).symm, (List.append_nil _).symm⟩
  rcases hsim.alike s t hstart with hlost | hout | halike
  · exact hlost.elim
  · exact absurd hout hlast
  · refine ⟨?_, halike.mono fun _ _ huv => ⟨huv.machine, huv.channel.device⟩⟩
    obtain ⟨made, hs, ht⟩ := halike.related.channel.calls
    have hmakes : Makes (step fuel) s made := hs
    have hmakes' : Makes (step fuel) t made := ht
    rw [hmakes.madeBy_eq, hmakes'.madeBy_eq]

theorem steps_same (hlast : ¬OutOfFuel (steps fuel n s)) :
    Alike (OnSameDevice Same) (steps fuel n s) (steps fuel n t) := by
  have hsim := h.sameDevice_simulation.stepSimulation.steps (Nat.le_refl fuel) n
  rcases hsim.alike s t hst with hlost | hout | halike
  · exact hlost.elim
  · exact absurd hout hlast
  · exact halike

/-- The same instructions are executed, and they make the same calls. -/
theorem executed_same (hlast : ¬OutOfFuel (steps fuel n s)) :
    executed fuel n s = executed fuel n t := by
  induction n generalizing s t with
  | zero => rfl
  | succ n ih =>
    cases hs : s.machine.isRunning with
    | false => rw [executed_of_halted hs, executed_of_halted (hst.machine ▸ hs)]
    | true =>
      rw [steps_of_running hs fuel n] at hlast
      have hstep : ¬OutOfFuel (step fuel s) := fun hout => hlast (hout.bind _)
      obtain ⟨hmade, halike⟩ := h.step_same hst hstep
      rw [executed_of_running hs, executed_of_running (hst.machine ▸ hs), hmade]
      congr 1
      generalize hr : step fuel s = r at halike
      generalize hr' : step fuel t = r' at halike
      cases halike with
      | ok _ huv =>
        rw [bind_of_ok hr] at hlast
        exact ih huv hlast
      | error _ _ => rfl

omit hst in
theorem break_same {s t : System σ} (hst : OnSameDevice Same s t) :
    ∃ u v, atChannel Channel.flush t = .ok () u ∧ pause false u = .ok () v ∧
      OnSameDevice Same s v := by
  obtain ⟨m, c⟩ := t
  have hflush : Channel.flush c = .ok () (c.after (Console.flush c.device) fun _ => .flush) :=
    exchange_of_ok _ (h.answer_flush c.device)
  refine ⟨_, _, atChannel_of_ok hflush, rfl, hst.machine, ?_⟩
  exact h.equivalence.trans hst.channel (h.equivalence.symm (h.flush c.device))

theorem slices_same (hk : 1 ≤ k) (hlast : ¬OutOfFuel (run fuel s)) :
    Alike (OnSameDevice Same) (run fuel s) (runInSlices k fuel t) := by
  refine alike_of_unnoticed h.sameDevice_simulation.stepSimulation (fun u v huv => ?_) hst hk hlast
  obtain ⟨w, w', hflush, hpause, hsame⟩ := h.break_same huv
  exact ⟨w', (bind_of_ok hflush).trans hpause, hsame⟩

/-- The slices of `t` are scheduled as the plain run from `s` wants it. -/
theorem sliced_schedule (hk : 1 ≤ k) (hlast : ¬OutOfFuel (steps fuel (m * k) s)) :
    Schedule k (stopOf (steps fuel (m * k) s)).isSome (executed fuel (m * k) s)
      (sliced fuel k m t) := by
  -- Slice by slice. The first `k` steps of the plain run are those of the first slice, and behind
  -- the break `t` is still the same as `s` is behind these steps.
  induction m generalizing s t with
  | zero =>
    rw [Nat.zero_mul]
    exact .nil
  | succ m ih =>
    cases hs : s.machine.isRunning with
    | false =>
      have ht : t.machine.isRunning = false := hst.machine ▸ hs
      rw [steps_guarded fuel _ s hs, executed_of_halted hs, sliced, ht]
      exact .nil
    | true =>
      have ht : t.machine.isRunning = true := hst.machine ▸ hs
      have hsplit : (m + 1) * k = k + m * k := by rw [Nat.succ_mul, Nat.add_comm]
      have hpos : executed fuel k s ≠ [] := executed_ne_nil hs hk
      have hle : (executed fuel k s).length ≤ k := length_executed_le k s
      rw [hsplit, steps_add] at hlast ⊢
      have hfirst : ¬OutOfFuel (steps fuel k s) := fun hout => hlast (hout.bind _)
      have halike := h.steps_same hst hfirst
      rw [executed_add, sliced, if_pos ht, ← h.executed_same hst hfirst]
      generalize hr : steps fuel k s = r at halike
      generalize steps fuel k t = r' at halike
      cases halike with
      | @ok _ u v huv =>
        obtain ⟨v', w, hflush, hpause, huw⟩ := h.break_same huv
        rw [bind_of_ok hr] at hlast ⊢
        rw [afterwards_ok, afterwards_ok, hflush, afterwards_ok, hpause, afterwards_ok]
        cases hu : u.machine.isRunning with
        | true => exact .full (length_executed hr hu) (ih huw hlast)
        | false =>
          have hrest : sliced fuel k m w = [] := sliced_of_halted (huw.machine ▸ hu) m
          rw [steps_guarded fuel _ u hu, executed_of_halted hu, hrest, List.append_nil]
          exact .last hpos hle
      | error e huv =>
        rw [bind_of_error hr, afterwards_error, afterwards_error, List.append_nil, List.append_nil]
        exact .failed hpos hle

end IgnoresFlush

/-! ## Runs that end -/

variable {n' : Nat} {r : EStateM.Result Stop (System σ) Unit}

/-- Behind the step that halts the machine nothing is executed. -/
theorem steps_beyond (hsteps : steps fuel n s = r) (hhalt : (leftBy r).machine.state = .halted)
    (hn : n ≤ n') : steps fuel n' s = r ∧ executed fuel n' s = executed fuel n s := by
  obtain ⟨j, rfl⟩ := Nat.exists_eq_add_of_le hn
  rw [steps_add, executed_add, hsteps]
  rcases r with ⟨_, t⟩ | ⟨e, t⟩
  · have ht : t.machine.isRunning = false := Machine.isRunning_eq_false_iff.2 hhalt
    rw [bind_of_ok hsteps, afterwards_ok, executed_of_halted ht, List.append_nil]
    exact ⟨steps_guarded fuel j t ht, rfl⟩
  · rw [bind_of_error hsteps, afterwards_error, List.append_nil]
    exact ⟨rfl, rfl⟩

theorem length_executed_of_isLeast (hleast : IsLeast (haltedAfter s) n) (hr : Attempts s n r)
    (hsteps : steps fuel n s = r) : (executed fuel n s).length = n := by
  cases hr with
  | none => rfl
  | @next j q _ hbefore hstep =>
    have hrun := running_of_isLeast hleast
    obtain ⟨u, rfl⟩ := hbefore.complete (hrun j (Nat.lt_succ_self j) q hbefore)
    have hu : u.machine.isRunning = true :=
      Machine.isRunning_iff.2 (hrun j (Nat.lt_succ_self j) _ hbefore)
    have hlast : ¬OutOfFuel (steps fuel j s) := fun hout => hstep.lasting (by
      rw [← hsteps, steps_add]
      exact hout.bind _)
    have hends : EndsIn (steps · j) s (steps fuel j s) := ⟨⟨fuel, rfl⟩, hlast⟩
    have hfirst : steps fuel j s = .ok () u :=
      hends.unique (steps_steady j) (hbefore.steps fun i hi => hrun i (Nat.lt_succ_of_lt hi))
    rw [executed_add, List.length_append, length_executed hfirst hu, hfirst, afterwards_ok,
      executed_of_running hu]
    cases step fuel u <;> rfl

/-- With this fuel the plain run comes to `r` with its `n`-th instruction, and the run in slices of
`k` to the same, with the breaks that the schedule has for it. -/
structure RunsInSlices (Same : σ → σ → Prop) (k n fuel : Nat) (s : System σ)
    (r : EStateM.Result Stop (System σ) Unit) : Prop where
  plain : run fuel s = r
  alike : Alike (OnSameDevice Same) r (runInSlices k fuel s)
  length : (executed fuel n s).length = n
  schedule : Schedule k (stopOf r).isSome (executed fuel n s) (sliced fuel k fuel s)
  flushes : (sliced fuel k fuel s).countP Move.isFlush = breaks k n (stopOf r).isSome
  yields : (sliced fuel k fuel s).countP Move.isYield = breaks k n (stopOf r).isSome
  /-- Without the breaks the calls are those of the plain run. -/
  calls : (leftBy r).channel.journal.acts = s.channel.journal.acts ++
    ((sliced fuel k fuel s).filter Move.isInstruction).flatMap Move.acts

theorem runsInSlices_of_isLeast (h : IgnoresFlush Same) (hk : 1 ≤ k)
    (hleast : IsLeast (haltedAfter s) n) (hr : Attempts s n r) :
    ∃ enough, ∀ fuel, enough ≤ fuel → RunsInSlices Same k n fuel s r := by
  have hself : OnSameDevice Same s s := ⟨rfl, h.equivalence.refl _⟩
  have hhalt : (leftBy r).machine.state = .halted := by
    obtain ⟨r', hr', hhalt⟩ := hleast.1
    rwa [hr.unique hr']
  have hends : EndsIn (MachineM.steps · n) s r := hr.steps (running_of_isLeast hleast)
  obtain ⟨fuel, hsteps⟩ := hends.reached_with_more (steps_steady n)
  obtain ⟨fuel', hrun⟩ := (hends.run_of_steps hhalt).reached_with_more run_steady
  refine ⟨max n (max fuel fuel'), fun more hmore => ?_⟩
  have hfirst : steps more n s = r := hsteps more (by omega)
  have hlength : (executed more n s).length = n := length_executed_of_isLeast hleast hr hfirst
  have hwhole : run more s = r := hrun more (by omega)
  have hn : n ≤ more * k := Nat.le_trans (by omega) (Nat.le_mul_of_pos_right more hk)
  obtain ⟨hall, hexecuted⟩ := steps_beyond hfirst hhalt hn
  have hschedule : Schedule k (stopOf r).isSome (executed more n s) (sliced more k more s) := by
    have hlast : ¬OutOfFuel (steps more (more * k) s) := hall ▸ hends.lasting
    have hsliced := h.sliced_schedule hself hk hlast
    rwa [hall, hexecuted] at hsliced
  have hcount {p : Move → Bool} (hp : ∀ c, p (.instruction c) = false)
      (hbreak : [Move.flush, .yield].countP p = 1) :
      (sliced more k more s).countP p = breaks k n (stopOf r).isSome := by
    have hcounted := hschedule.countP hk hp hbreak
    rwa [hlength] at hcounted
  refine ⟨hwhole, ?_, hlength, hschedule, hcount (fun _ => rfl) rfl, hcount (fun _ => rfl) rfl, ?_⟩
  · have halike := h.slices_same hself hk (hwhole ▸ hends.lasting)
    rwa [hwhole] at halike
  · rw [hschedule.filter, instructions_acts, ← hfirst]
    exact steps_acts more n s

/-- A run in slices of `k` instructions, on a console that ignores flushes, gives control back
behind every `k` instructions and behind the last one, each time right behind a flush of its own.
This holds for as many slices as are looked at, whether or not the run ends. If the machine is
halted by its `n`-th instruction there are `n / k` breaks, rounded up; if the `n`-th instruction
throws there are `(n - 1) / k`, rounded down, and none behind it. Apart from the breaks the calls
are those of the plain run, in the same order, and both runs end alike. -/
theorem slices_follow_schedule (h : IgnoresFlush Same) (hk : 1 ≤ k) (s : System σ) :
    (∀ fuel m,
      (leftBy (slicesFor fuel k false m s)).channel.journal.acts =
          s.channel.journal.acts ++ (sliced fuel k m s).flatMap Move.acts ∧
        (¬OutOfFuel (steps fuel (m * k) s) →
          Schedule k (stopOf (steps fuel (m * k) s)).isSome (executed fuel (m * k) s)
            (sliced fuel k m s))) ∧
      ∀ n r, IsLeast (haltedAfter s) n → Attempts s n r →
        ∃ enough, ∀ fuel, enough ≤ fuel → RunsInSlices Same k n fuel s r := by
  have hself : OnSameDevice Same s s := ⟨rfl, h.equivalence.refl _⟩
  exact ⟨fun fuel m => ⟨slices_acts fuel k m s, h.sliced_schedule hself hk⟩,
    fun _ _ => runsInSlices_of_isLeast h hk⟩

/-- Three instructions in slices of two take two breaks. If the second instruction throws there is
no break in slices of two, and one in slices of one. -/
theorem slices_follow_schedule_echo_starving :
    (∃ enough, ∀ fuel, enough ≤ fuel → (sliced fuel 2 fuel echo).countP Move.isYield = 2) ∧
      (∃ enough, ∀ fuel, enough ≤ fuel → (sliced fuel 2 fuel starving).countP Move.isYield = 0) ∧
      ∃ enough, ∀ fuel, enough ≤ fuel → (sliced fuel 1 fuel starving).countP Move.isYield = 1 := by
  have hecho : ∃ r, stopOf r = none ∧ IsLeast (haltedAfter echo) 3 ∧ Attempts echo 3 r := by
    let t := leftBy (steps 0 2 echo)
    have hsteps : steps 0 2 echo = .ok () t := eq_ok_of_stopOf (by decide +kernel)
    have hstep : stopOf (step 0 t) = none := by decide +kernel
    have hends : EndsIn step t (step 0 t) := ⟨⟨0, rfl⟩, by rw [eq_ok_of_stopOf hstep]; exact nofun⟩
    exact ⟨_, hstep, isLeast_of_steps hsteps (by decide +kernel) hends (by decide +kernel)⟩
  have hstarving : ∃ r, stopOf r = some (.fault .inputClosed) ∧
      IsLeast (haltedAfter starving) 2 ∧ Attempts starving 2 r := by
    let t := leftBy (steps 0 1 starving)
    have hsteps : steps 0 1 starving = .ok () t := eq_ok_of_stopOf (by decide +kernel)
    have hstep : stopOf (step 0 t) = some (.fault .inputClosed) := by decide +kernel
    have hends : EndsIn step t (step 0 t) :=
      ⟨⟨0, rfl⟩, by rw [eq_error_of_stopOf hstep]; exact nofun⟩
    exact ⟨_, hstep, isLeast_of_steps hsteps (by decide +kernel) hends (by decide +kernel)⟩
  obtain ⟨r, hstop, hleast, hr⟩ := hecho
  obtain ⟨r', hstop', hleast', hr'⟩ := hstarving
  have hthrown (k : Nat) (hk : 1 ≤ k) : ∃ enough, ∀ fuel, enough ≤ fuel →
      (sliced fuel k fuel starving).countP Move.isYield = breaks k 2 true := by
    obtain ⟨-, hends⟩ := slices_follow_schedule ignoresFlush_of_flushBlind hk starving
    obtain ⟨enough, henough⟩ := hends 2 r' hleast' hr'
    refine ⟨enough, fun fuel hfuel => ?_⟩
    have hyields := (henough fuel hfuel).yields
    rwa [hstop'] at hyields
  refine ⟨?_, hthrown 2 (by decide), hthrown 1 (by decide)⟩
  obtain ⟨-, hends⟩ := slices_follow_schedule ignoresFlush_of_flushBlind (k := 2) (by decide) echo
  obtain ⟨enough, henough⟩ := hends 3 r hleast hr
  refine ⟨enough, fun fuel hfuel => ?_⟩
  have hyields := (henough fuel hfuel).yields
  rwa [hstop] at hyields

end LC3
