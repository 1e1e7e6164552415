import LC3.Proofs.PromptOutput
import LC3.Proofs.RawMode
import LC3.Proofs.Strings

/-!
# Signals

Control is given back for the first time behind the first slice and its flush, and a signal that
waits is delivered there. Before that point a session with a signal is the session without. At that
point nothing is held back any more, so the answer to the signal adds nothing to the output of the
program: it puts the terminal back and ends the line.
-/

namespace LC3.Session

open MachineM

/-- The command before its first event. -/
def atStart (keys : List Keystroke) (stdin : Stdin) : Session Line Tty :=
  ⟨{ device := { keys } }, { stdin }⟩

/-- A round of memory for each key, and one more. -/
def enough (keys : List Keystroke) : Nat := (keys.length + 1) * 65536

/-- The session is over before control is given back: no image is named, they do not all load, or
the program fails in its first slice. -/
inductive EndsBeforeBreak (paths : List String) (files : FileReader) (keys : List Keystroke) :
    Prop where
  | unnamed (h : paths = [])
  | unloadable (h : ¬∃ images, Holds files paths images)
  | failed {images : List Image} {f : Fault} {t : System Line} (himages : Holds files paths images)
      (h : EndsIn (steps · sliceSize) (loaded images { keys }) (.error (.fault f) t))

/-- The events up to the end of the flush behind the first slice, which comes to `t`. -/
def untilBreak (paths : List String) (stdin : Stdin) (t : System Line) : List Event :=
  opening paths ({ stdin } : Tty) ++ t.channel.flushed.journal.toList

/-! ## The first slice -/

section FirstSlice

variable {paths : List String} {files : FileReader} {keys : List Keystroke} {stdin : Stdin}
  {images : List Image}

theorem line_steps_lasting {s : System Line} {fuel : Nat}
    (hfuel : enough s.channel.device.keys ≤ fuel) (n : Nat) : ¬OutOfFuel (steps fuel n s) :=
  steps_lasting line_rations (line_bounded _) hfuel n (Nat.le_refl _)

theorem idle_opening : ∀ e ∈ opening paths ({ stdin } : Tty), e.Idle := by
  intro e he
  rcases List.mem_append.1 he with he | he
  · obtain ⟨_, -, rfl⟩ := List.mem_map.1 he
    exact ⟨rfl, rfl, rfl⟩
  · rcases List.mem_cons.1 he with rfl | he
    · exact ⟨rfl, rfl, rfl⟩
    · obtain ⟨t, ht, rfl⟩ := List.mem_map.1 he
      exact mute_tty.enter _ t ht

/-- Up to the first break everything that the program wrote is shown. -/
theorem shown_untilBreak {n : Nat} {t : System Line}
    (h : EndsIn (steps · n) (loaded images ({ keys } : Line)) (.ok () t)) :
    (untilBreak paths stdin t).flatMap Event.shown = t.channel.journal.written := by
  have hstart : Accounted (loaded images ({ keys } : Line)).channel := by
    refine ⟨rfl, fun before k after hsplit => ?_⟩
    cases (List.append_eq_nil_iff.1 hsplit.symm).2
  have haccounted : Accounted t.channel := by
    obtain ⟨fuel, hfuel⟩ := h.reached
    have hkept := (accounted_simulation.simulation.steps (Nat.le_refl fuel) n).lost _ hstart
    rwa [show steps fuel n (loaded images ({ keys } : Line)) = .ok () t from hfuel] at hkept
  have hopening : (opening paths ({ stdin } : Tty)).flatMap Event.shown = [] :=
    List.flatMap_eq_nil_iff.2 fun e he => (idle_opening e he).shown
  have hheld : t.channel.flushed.device.buffer.toList = [] :=
    FlushBlind.held_flush t.channel.device
  have hproduced : t.channel.flushed.journal.shown ++ t.channel.flushed.device.buffer.toList =
      t.channel.journal.written := (produced_flush t.channel).trans haccounted.total
  rw [hheld, List.append_nil] at hproduced
  unfold untilBreak
  rw [List.flatMap_append, hopening]
  exact hproduced

/-- A session whose images load runs the loaded machine, and with all fuel that is enough its first
slice is that of the machine alone, behind the opening. -/
theorem launch_first_slice (hfailure : stdin.failure = none) (hpaths : paths ≠ [])
    (himages : Holds files paths images) {r : EStateM.Result Stop (System Line) Unit}
    (h : EndsIn (steps · sliceSize) (loaded images { keys }) r) :
    ∃ (start : System Line) (q : EStateM.Result Stop (System Line) Unit),
      start.machine.isRunning = true ∧
        (∀ fuel, enough keys ≤ fuel → steps fuel sliceSize start = q) ∧
        Alike (OnSameMachine (Shifted (opening paths ({ stdin } : Tty)) [])) q r ∧
        ∀ signalWaiting fuel, RawEnding (Tty.enter { stdin }).device
          (slicesFor fuel sliceSize signalWaiting fuel start)
          (launch { paths, files, terminalGiven := true, signalWaiting, fuel }
            (atStart keys stdin)) := by
  obtain ⟨henter, -⟩ := Tty.enter_of_working hfailure
  obtain ⟨hleave, -⟩ := Tty.leave_of_working hfailure
  obtain ⟨c, hc, hlaunch⟩ := launch_raw (d := ({ keys } : Line)) hpaths himages henter hleave
  let start : System Line := ⟨(loaded images ({ keys } : Line)).machine, c⟩
  have hkeys : start.channel.device.keys = keys := congrArg Line.keys hc.device
  have hlast : ¬OutOfFuel (steps (enough keys) sliceSize start) :=
    line_steps_lasting (Nat.le_of_eq (congrArg enough hkeys)) sliceSize
  have hagree (fuel : Nat) : ∃ fuel', Agree (fun _ => False)
      (OnSameMachine (Shifted (opening paths ({ stdin } : Tty)) []))
      (steps fuel sliceSize : MachineM Line Unit) (steps fuel' sliceSize) :=
    ⟨fuel, Shifted.simulation.simulation.steps (Nat.le_refl fuel) sliceSize⟩
  have hends : EndsIn (steps · sliceSize) start (steps (enough keys) sliceSize start) :=
    ⟨⟨enough keys, rfl⟩, hlast⟩
  have hstart : OnSameMachine (Shifted (opening paths ({ stdin } : Tty)) []) start
      (loaded images { keys }) := ⟨rfl, hc⟩
  obtain ⟨r', hr', halike⟩ := hends.agree hagree hstart
  obtain rfl := hr'.unique (steps_steady sliceSize) h
  exact ⟨start, _, isRunning_loaded images ({ keys } : Line),
    fun fuel hfuel => steps_steady sliceSize hfuel start hlast, halike, hlaunch true⟩

theorem succ_of_enough {fuel : Nat} (h : enough keys ≤ fuel) : ∃ n, fuel = n + 1 :=
  ⟨fuel - 1, by unfold enough at h; omega⟩

end FirstSlice

/-! ## Sessions without a break -/

theorem command_of_failed {stdin : Stdin} (hfailure : stdin.failure = none) {job : Job}
    (hgiven : job.terminalGiven = true) {s : Session Line Tty} {f : Fault} {u : System Line}
    (hraw : RawEnding (Tty.enter { stdin }).device (.error (.fault f) u) (launch job s)) :
    ∃ code final, command job s = .ok code final := by
  have hagain := Tty.leave_of_saved (Tty.saved_of_working hfailure)
  generalize hr : launch job s = r at hraw
  cases hraw with
  | reported _ hf hw => exact ⟨_, _, command_of_ok hr⟩
  | passedOn _ hf =>
    have hanswer : (Tty.leave (Tty.leave (Tty.enter { stdin }).device).device).answer = .ok () :=
      congrArg Reply.answer hagain
    obtain ⟨v, hcommand, -⟩ := command_of_fault hgiven hanswer hr
    exact ⟨_, v, hcommand⟩

section Command

variable {paths : List String} {files : FileReader} {keys : List Keystroke} {stdin : Stdin}
  {images : List Image}

/-- A program that fails in its first slice does not get to a break. -/
theorem commandLine_of_failed (hfailure : stdin.failure = none) (hpaths : paths ≠ [])
    (himages : Holds files paths images) {f : Fault} {t : System Line}
    (h : EndsIn (steps · sliceSize) (loaded images { keys }) (.error (.fault f) t)) :
    ∃ code final, ∀ signalWaiting fuel, enough keys ≤ fuel →
      commandLine paths files signalWaiting fuel (atStart keys stdin) = .ok code final := by
  obtain ⟨start, q, hrun, hsteps, halike, hlaunch⟩ :=
    launch_first_slice hfailure hpaths himages h
  cases halike with
  | @error _ u _ hu =>
  have hraw (signalWaiting : Bool) (fuel : Nat) (hfuel : enough keys ≤ fuel) :
      RawEnding (Tty.enter { stdin }).device (.error (.fault f) u)
        (launch { paths, files, terminalGiven := true, signalWaiting, fuel }
          (atStart keys stdin)) := by
    obtain ⟨n, rfl⟩ := succ_of_enough hfuel
    have hslices := slices_of_steps_error hrun (hsteps (n + 1) hfuel) signalWaiting n
    exact hslices ▸ hlaunch signalWaiting (n + 1)
  have hfirst := hraw false (enough keys) (Nat.le_refl _)
  obtain ⟨code, final, hcommand⟩ := command_of_failed hfailure rfl hfirst
  -- An ending determines what the launch makes of it, whether a signal waits or not.
  refine ⟨code, final, fun signalWaiting fuel hfuel => .trans ?_ hcommand⟩
  exact command_congr rfl ((hraw signalWaiting fuel hfuel).unique hfirst)

/-! ## Sessions with a break -/

theorem journal_atBreak {u t : System Line}
    (h : Shifted (opening paths ({ stdin } : Tty)) [] u.channel t.channel) :
    (atBreak u).channel.journal.toList = untilBreak paths stdin t ++ [.pause] := by
  have hflushed : Shifted (opening paths ({ stdin } : Tty)) [] u.channel.flushed
      t.channel.flushed := by
    rcases (Shifted.exchanges Console.flush fun _ => .flush).alike _ _ h with h | ⟨-, h⟩
    · exact h.elim
    · exact h
  obtain ⟨events, hu, ht⟩ := hflushed.journal
  have hpause : (atBreak u).channel.journal.toList = u.channel.flushed.journal.toList ++ [.pause] :=
    Array.toList_push
  unfold untilBreak
  rw [hpause, hu, ht, List.nil_append]

theorem command_appends (hfailure : stdin.failure = none) {job : Job}
    (hgiven : job.terminalGiven = true) {s : Session Line Tty}
    {q : EStateM.Result Stop (System Line) Unit} {before : List Event}
    (hraw : RawEnding (Tty.enter { stdin }).device q (launch job s))
    (hnotes : Notes before (fun e => e.switched = []) (leftBy q).channel) :
    ∃ later, (leftBy (command job s)).channel.journal.toList = before ++ later := by
  by_cases hout : OutOfFuel q
  · obtain ⟨t, rfl⟩ := hout
    obtain ⟨events, hevents, -⟩ := hnotes
    generalize hr : launch job s = r at hraw
    cases hraw with
    | outOfFuel =>
      rw [command_of_outOfFuel hr]
      exact ⟨events, hevents⟩
  · obtain ⟨code, final, during, tail, after, hcommand, hjournal, -⟩ :=
      command_of_raw hfailure hgiven hraw hnotes hout
    rw [hcommand]
    refine ⟨during ++ (requestEvents .leave (Tty.leave (Tty.enter { stdin }).device) ++ after), ?_⟩
    simp only [leftBy, hjournal, List.append_assoc]

/-- What the answer to a signal adds where nothing is held back. -/
theorem command_of_signalled (hfailure : stdin.failure = none) {job : Job}
    {s : Session Line Tty} {u : System Line} (hempty : u.channel.device.buffer = #[])
    (hraw : RawEnding (Tty.enter { stdin }).device (.error .signal u) (launch job s)) :
    ∃ final, command job s = .ok .interrupted final ∧ final.channel.journal.toList =
      u.channel.journal.toList ++ (.call .flush :: .mode .leave ::
        ((stdin.sends (stdin.isRaw.getD false)).map .host ++ [.host (.output [0x0a])])) := by
  obtain ⟨hleave, hsent⟩ := Tty.leave_of_working hfailure
  generalize hr : launch job s = r at hraw
  cases hraw with
  | signalled =>
  let v : Session Line Tty := ⟨u.channel, (Tty.enter { stdin }).device⟩
  obtain ⟨final, hcommand, hfinal⟩ :=
    command_of_signal (u := v) (FlushBlind.answer_flush _) hleave hr
  refine ⟨final, hcommand, ?_⟩
  have hflush : (Console.flush u.channel.device).traffic = [] := by
    show (Line.flush u.channel.device).traffic = []
    rw [Line.flush_eq, hempty]
    rfl
  have hflushed :
      v.flushed.channel.journal.toList = u.channel.journal.toList ++ [.call .flush] := by
    have hafter := toList_journal_after u.channel (Console.flush u.channel.device) fun _ => .flush
    rwa [hflush] at hafter
  have hleft : v.flushed.left.channel.journal.toList = v.flushed.channel.journal.toList ++
      requestEvents .leave (Tty.leave (Tty.enter { stdin }).device) :=
    toList_journal_requested _ _ v.flushed
  rw [hfinal.journal, hleft, hflushed, ← hsent]
  simp only [requestEvents, List.append_assoc, List.cons_append, List.nil_append]

/-- A signal that gets to a break ends the session there. -/
theorem commandLine_signalled (hfailure : stdin.failure = none) (hpaths : paths ≠ [])
    (himages : Holds files paths images) {t : System Line}
    (h : EndsIn (steps · sliceSize) (loaded images { keys }) (.ok () t)) :
    ∃ final, final.channel.journal.toList = untilBreak paths stdin t ++
        (.pause :: .call .flush :: .mode .leave ::
          ((stdin.sends (stdin.isRaw.getD false)).map .host ++ [.host (.output [0x0a])])) ∧
      ∀ fuel, enough keys ≤ fuel →
        commandLine paths files true fuel (atStart keys stdin) = .ok .interrupted final := by
  obtain ⟨start, q, hrun, hsteps, halike, hlaunch⟩ :=
    launch_first_slice hfailure hpaths himages h
  cases halike with
  | @ok _ u _ hu =>
  have hraw (fuel : Nat) (hfuel : enough keys ≤ fuel) :
      RawEnding (Tty.enter { stdin }).device (.error .signal (atBreak u))
        (launch { paths, files, terminalGiven := true, signalWaiting := true, fuel }
          (atStart keys stdin)) := by
    obtain ⟨n, rfl⟩ := succ_of_enough hfuel
    have hslices := slices_signalled hrun (hsteps (n + 1) hfuel) n
    exact hslices ▸ hlaunch true (n + 1)
  have hempty : (atBreak u).channel.device.buffer = #[] := Line.buffer_flush u.channel.device
  have hfirst := hraw (enough keys) (Nat.le_refl _)
  obtain ⟨final, hcommand, hjournal⟩ := command_of_signalled hfailure hempty hfirst
  refine ⟨final, ?_, fun fuel hfuel => .trans ?_ hcommand⟩
  · rw [hjournal, journal_atBreak hu.channel, List.append_assoc]
    rfl
  · exact command_congr rfl ((hraw fuel hfuel).unique hfirst)

/-- Without a signal the session goes on from the break. -/
theorem commandLine_resumed (hfailure : stdin.failure = none) (hpaths : paths ≠ [])
    (himages : Holds files paths images) {t : System Line}
    (h : EndsIn (steps · sliceSize) (loaded images { keys }) (.ok () t)) {fuel : Nat}
    (hfuel : enough keys ≤ fuel) :
    ∃ later,
      (leftBy (commandLine paths files false fuel (atStart keys stdin))).channel.journal.toList =
        untilBreak paths stdin t ++ .pause :: later := by
  obtain ⟨start, q, hrun, hsteps, halike, hlaunch⟩ :=
    launch_first_slice hfailure hpaths himages h
  cases halike with
  | @ok _ u _ hu =>
  obtain ⟨n, rfl⟩ := succ_of_enough hfuel
  have hslices := slices_resumed hrun (hsteps (n + 1) hfuel) n
  have hraw := hlaunch false (n + 1)
  rw [hslices] at hraw
  have hbreak : Notes (untilBreak paths stdin t ++ [.pause]) (fun e => e.switched = [])
      (atBreak u).channel := by
    refine ⟨[], ?_, fun _ he => absurd he List.not_mem_nil⟩
    rw [journal_atBreak hu.channel, List.append_nil]
  -- The run only appends to what was noted until the break, and so does the session behind it.
  have hnotes := Line.causes.simulation.simulation.lost_slicesFor (n + 1) sliceSize false n
    (atBreak u) hbreak
  obtain ⟨later, hlater⟩ := command_appends hfailure rfl hraw hnotes
  refine ⟨later, hlater.trans ?_⟩
  rw [List.append_assoc]
  rfl

end Command

/-! ## The command -/

section FirstBreak

variable {paths : List String} {files : FileReader} {keys : List Keystroke}

theorem EndsBeforeBreak.settled (h : EndsBeforeBreak paths files keys) {stdin : Stdin}
    (hfailure : stdin.failure = none) :
    ∃ code final, ∀ signalWaiting fuel, enough keys ≤ fuel →
      commandLine paths files signalWaiting fuel (atStart keys stdin) = .ok code final := by
  have hunready (h : paths = [] ∨ ¬∃ images, Holds files paths images) :
      ∃ code final, ∀ signalWaiting fuel, enough keys ≤ fuel →
        commandLine paths files signalWaiting fuel (atStart keys stdin) = .ok code final := by
    obtain ⟨code, final, -, hcommand⟩ := commandLine_unlaunched h keys stdin
    exact ⟨code, final, fun signalWaiting fuel _ => hcommand signalWaiting fuel⟩
  cases h with
  | unnamed h => exact hunready (.inl h)
  | unloadable h => exact hunready (.inr h)
  | failed himages h =>
    by_cases hpaths : paths = []
    · exact hunready (.inl hpaths)
    · exact commandLine_of_failed hfailure hpaths himages h

theorem first_slice_of_not_endsBeforeBreak (h : ¬EndsBeforeBreak paths files keys) :
    paths ≠ [] ∧ ∃ images t, Holds files paths images ∧
      EndsIn (steps · sliceSize) (loaded images ({ keys } : Line)) (.ok () t) := by
  refine ⟨fun hpaths => h (.unnamed hpaths), ?_⟩
  obtain ⟨images, himages⟩ : ∃ images, Holds files paths images :=
    Classical.not_not.1 fun hunloaded => h (.unloadable hunloaded)
  let start : System Line := loaded images { keys }
  have hlast : ¬OutOfFuel (steps (enough keys) sliceSize start) :=
    line_steps_lasting (s := start) (Nat.le_refl (enough keys)) sliceSize
  have hends : EndsIn (steps · sliceSize) start (steps (enough keys) sliceSize start) :=
    ⟨⟨enough keys, rfl⟩, hlast⟩
  have hquiet : Quiet (steps (enough keys) sliceSize : MachineM Line Unit) :=
    (Simulation.refl.steps (Nat.le_refl _) sliceSize).quiet
  rcases hsteps : steps (enough keys) sliceSize start with ⟨_, t⟩ | ⟨f | _ | _, t⟩ <;>
    rw [hsteps] at hends
  · exact ⟨images, t, himages, hends⟩
  · exact absurd (.failed himages hends) h
  · exact absurd hsteps (hquiet start t)
  · exact absurd ⟨t, rfl⟩ hends.lasting

end FirstBreak

/-- If a session of the command is over before control is given back for the first time, a signal
changes nothing. Otherwise a signal ends it there with its own exit code. The session has then done
what the session without a signal has done up to the end of the flush behind its first slice, so
that everything the program wrote is shown. After that the terminal is put back and the line is
ended, and nothing else happens. It makes no difference whether the machine still runs. -/
theorem signal_cuts_at_first_break (paths : List String) (files : FileReader)
    (keys : List Keystroke) {stdin : Stdin} (hfailure : stdin.failure = none) :
    (EndsBeforeBreak paths files keys → ∃ code final, ∀ signalWaiting fuel, enough keys ≤ fuel →
      commandLine paths files signalWaiting fuel (atStart keys stdin) = .ok code final) ∧
    (¬EndsBeforeBreak paths files keys → ∃ images t final, Holds files paths images ∧
      EndsIn (steps · sliceSize) (loaded images { keys }) (.ok () t) ∧
      (untilBreak paths stdin t).flatMap Event.shown = t.channel.journal.written ∧
      final.channel.journal.toList = untilBreak paths stdin t ++
        (.pause :: .call .flush :: .mode .leave ::
          ((stdin.sends (stdin.isRaw.getD false)).map .host ++ [.host (.output [0x0a])])) ∧
      ∀ fuel, enough keys ≤ fuel →
        commandLine paths files true fuel (atStart keys stdin) = .ok .interrupted final ∧
        ∃ later,
          (leftBy
              (commandLine paths files false fuel (atStart keys stdin))).channel.journal.toList =
            untilBreak paths stdin t ++ .pause :: later) := by
  refine ⟨fun h => h.settled hfailure, fun h => ?_⟩
  obtain ⟨hpaths, images, t, himages, hslice⟩ := first_slice_of_not_endsBeforeBreak h
  obtain ⟨final, hjournal, hcommand⟩ := commandLine_signalled hfailure hpaths himages hslice
  refine ⟨images, t, final, himages, hslice, shown_untilBreak hslice, hjournal,
    fun fuel hfuel => ?_⟩
  exact ⟨hcommand fuel hfuel, commandLine_resumed hfailure hpaths himages hslice hfuel⟩

/-- The machine has halted when the signal gets through. -/
theorem signal_cuts_at_first_break_haltFile :
    ∃ t final, (untilBreak ["halt"] { isTTY := true } t).flatMap Event.shown =
        t.channel.journal.written ∧
      final.channel.journal.toList = untilBreak ["halt"] { isTTY := true } t ++
        [.pause, .call .flush, .mode .leave, .host (.rawMode false), .host (.output [0x0a])] ∧
      ∀ fuel, enough [] ≤ fuel → commandLine ["halt"] haltFile true fuel
        (atStart [] { isTTY := true }) = .ok .interrupted final := by
  let stdin : Stdin := { isTTY := true }
  have hfailure : stdin.failure = none := rfl
  obtain ⟨-, hbreak⟩ := signal_cuts_at_first_break ["halt"] haltFile [] hfailure
  have hnot : ¬EndsBeforeBreak ["halt"] haltFile [] := by
    intro h
    cases h with
    | unnamed h => cases h
    | unloadable h => exact h ⟨[⟨0, [0xf025]⟩], .cons rfl .nil⟩
    | failed himages h =>
      cases himages with
      | cons hopen hnil =>
      cases hnil
      cases hopen
      let start : System Line := loaded [⟨0, [0xf025]⟩] {}
      have hlast : ¬OutOfFuel (steps 1 sliceSize start) := by decide +kernel
      have hcomplete : (steps 1 sliceSize start matches .ok _ _) = true := by decide +kernel
      have hends : EndsIn (steps · sliceSize) start (steps 1 sliceSize start) := ⟨⟨1, rfl⟩, hlast⟩
      rw [hends.unique (steps_steady sliceSize) h] at hcomplete
      cases hcomplete
  obtain ⟨images, t, final, -, -, hshown, hjournal, hcommand⟩ := hbreak hnot
  exact ⟨t, final, hshown, hjournal, fun fuel hfuel => (hcommand fuel hfuel).1⟩

end LC3.Session
