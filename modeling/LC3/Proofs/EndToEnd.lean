import LC3.Proofs.Sessions
import LC3.Proofs.Slices

/-!
# From files to an exit code

A session with images that load does what a plain run of the loaded machine does. It ends if that
run ends, its exit code tells how, and everything that the program does is between the two requests
to the terminal.
-/

namespace LC3.Session

open MachineM

variable {σ τ : Type}

/-- A machine with images, on a device. -/
def loaded (images : List Image) (d : σ) : System σ :=
  ⟨(Machine.fresh Machine.defaultOrigin).loadAll images, { device := d }⟩

theorem isRunning_loaded (images : List Image) (d : σ) :
    (loaded images d).machine.isRunning = true := by
  have hstate : ∀ m : Machine, (m.loadAll images).state = m.state := by
    induction images with
    | nil => exact fun _ => rfl
    | cons image images ih => exact fun m => ih (m.load image)
  unfold loaded Machine.isRunning
  rw [hstate]
  rfl

/-- Whether an event is caused by a run: by its console, or by a break. -/
def isRun : Event → Bool
  | .call _ => true
  | .host _ => true
  | .pause => true
  | _ => false

theorem run_causes [Console σ] : Causes σ fun e => isRun e = true where
  call _ := rfl
  pause := rfl
  read _ _ _ := rfl
  poll _ _ _ := rfl
  write _ _ _ _ := rfl
  flush _ _ _ := rfl

variable [ModeControl τ]

/-- The events up to the run. -/
def opening (paths : List String) (terminal : τ) : List Event :=
  paths.map .opened ++ requestEvents .enter (ModeControl.enter terminal)

/-- Everything noted, from the first file on: what the run caused is between the two requests to the
terminal, and so is the report. -/
structure Bracketed (paths : List String) (terminal : τ) (during report : List Event)
    (s : Session σ τ) : Prop where
  journal : s.channel.journal.toList =
    opening paths terminal ++ during ++ report ++
      requestEvents .leave (ModeControl.leave (ModeControl.enter terminal).device)
  run : ∀ e ∈ during, isRun e = true

/-- A session may be taken out of raw mode behind a run that began with an empty journal. -/
theorem bracketed_left {paths : List String} {terminal : τ} {c d : Channel σ} {report : List Event}
    {w : Session σ τ}
    (hshift : Shifted (opening paths terminal) [] c d)
    (hrun : Notes [] (fun e => isRun e = true) d)
    (hw : Noted report ⟨c, (ModeControl.enter terminal).device⟩ w) :
    Bracketed paths terminal d.journal.toList report w.left := by
  obtain ⟨events, hc, hd⟩ := hshift.journal
  obtain ⟨_, hd', hevents⟩ := hrun
  rw [hd']
  obtain rfl := List.append_cancel_left (hd.symm.trans hd')
  refine ⟨?_, hevents⟩
  have hterminal : w.terminal = (ModeControl.enter terminal).device := hw.terminal
  show (w.requested .leave (ModeControl.leave w.terminal)).channel.journal.toList = _
  rw [toList_journal_requested, hw.journal, hterminal, hc]
  rfl

variable [Console σ] [FlushBlind σ]

/-- A session that no signal disturbs. -/
def launching (paths : List String) (files : FileReader) (fuel : Nat) : SessionM σ τ ExitCode :=
  launch { paths, files, fuel }

/-- How a session settles, by the ending of the plain run from `start`. `during` is what the session
did in raw mode, and `report` is what it told the user after that. -/
inductive Settles (start : System σ) (during : List Event) : List Event →
    EStateM.Result Stop (System σ) Unit → EStateM.Result Stop (Session σ τ) ExitCode → Prop where
  /-- The program halted the machine. -/
  | halted {t : System σ} {s : Session σ τ}
      (hhalts : ∃ fuel n u, steps fuel n start = .ok () u ∧ step fuel u = .ok () t ∧ Halts u t)
      (hsaid : ∃ before,
        produced ⟨s.channel.device, during.toArray⟩ = before ++ Queue.codes "HALT\n")
      (hheld : FlushBlind.held s.channel.device = []) :
    Settles start during [] (.ok () t) (.ok .ok s)
  /-- The program failed, all of its output was pushed out, and the user was told. -/
  | failed {t : System σ} {s : Session σ τ} {f : Fault} (hf : f.isForeign = false)
      (hflush : ∃ earlier, during = earlier ++ [.call .flush])
      (hheld : FlushBlind.held s.channel.device = []) :
    Settles start during [.error (.text f.message)] (.error (.fault f) t)
      (.ok (if f = .interrupted then .interrupted else .failure) s)
  /-- The environment failed. -/
  | passedOn {t : System σ} {s : Session σ τ} {f : Fault} (hf : f.isForeign = true) :
    Settles start during [] (.error (.fault f) t) (.error (.fault f) s)

/-- The talk behind a beginning. -/
theorem talk_of_shifted {before : List Event} {c c' d : Channel σ} (hshift : Shifted before [] c c')
    (htalk : SameTalk d c') : SameTalk ⟨c.device, c'.journal.toList.toArray⟩ d := by
  rw [hshift.device, Array.toArray_toList]
  exact htalk.symm

theorem ofFault_eq (f : Fault) :
    ExitCode.ofFault f = if f = .interrupted then .interrupted else .failure := by
  cases f <;> rfl

section Launching

variable {paths : List String} {files : FileReader} {images : List Image} {d : σ} {terminal : τ}

/-- A session whose images load runs the loaded machine in raw mode. -/
theorem launch_raw (hpaths : paths ≠ []) (himages : Holds files paths images)
    (henter : (ModeControl.enter terminal).answer = .ok ())
    (hleave : (ModeControl.leave (ModeControl.enter terminal).device).answer = .ok ()) :
    ∃ c : Channel σ, Shifted (opening paths terminal) [] c { device := d } ∧
      ∀ terminalGiven signalWaiting fuel, RawEnding (ModeControl.enter terminal).device
        (runInterruptibly fuel sliceSize signalWaiting ⟨(loaded images d).machine, c⟩)
        (launch { paths, files, terminalGiven, signalWaiting, fuel }
          ⟨{ device := d }, terminal⟩) := by
  obtain ⟨u, hgather, hdevice, hterminal, hjournal⟩ :=
    gather_of_holds himages (⟨{ device := d }, terminal⟩ : Session σ τ)
  obtain ⟨c, t⟩ := u
  obtain rfl : t = terminal := hterminal
  let u : Session σ τ := ⟨c, t⟩
  refine ⟨u.entered.channel, ⟨hdevice, [], ?_, rfl⟩, fun terminalGiven signalWaiting fuel => ?_⟩
  · show (u.requested .enter (ModeControl.enter t)).channel.journal.toList = _
    rw [toList_journal_requested, hjournal]
    exact (List.append_nil _).symm
  · let job : Job := { paths, files, terminalGiven, signalWaiting, fuel }
    have hprepare : prepare job ⟨{ device := d }, t⟩ = .ok (.ok (loaded images d).machine) u :=
      prepare_of_ok hpaths hgather
    rw [launch_of_ready hprepare]
    exact inRawMode_execute (s := u) FlushBlind.answer_flush henter hleave job _

/-- A session settles as its run ended. The run of the session is `q`, the same run with an empty
journal is `q'`, and the plain run is `r'`. -/
theorem settles_of_raw {q q' r' : EStateM.Result Stop (System σ) Unit}
    {r : EStateM.Result Stop (Session σ τ) ExitCode}
    (hraw : RawEnding (ModeControl.enter terminal).device q r)
    (hshift : Alike (OnSameMachine (Shifted (opening paths terminal) [])) q q')
    (hq' : EndsIn (runInSlices sliceSize) (loaded images d) q')
    (hrun : EndsIn run (loaded images d) r') (hplain : Alike (OnSameMachine SameTalk) r' q') :
    ∃ during report, Settles (loaded images d) during report r' r ∧
      Bracketed paths terminal during report (leftBy r) ∧
      SameTalk ⟨(leftBy r).channel.device, during.toArray⟩ (leftBy r').channel := by
  obtain ⟨fuel, hslices⟩ := hq'.reached
  have hnotes : Notes [] (fun e => isRun e = true) (leftBy q').channel := by
    rw [← hslices]
    exact run_causes.notes fuel sliceSize false ⟨[], rfl, fun e he => nomatch he⟩
  cases hraw with
  | halted t =>
    cases hshift with
    | @ok _ _ t' ht =>
    cases hplain with
    | @ok _ t'' _ hplain =>
    obtain ⟨fuel', hfuel'⟩ := hrun.reached
    obtain ⟨n, u, hsteps, hstep, hlast⟩ := run_halts (isRunning_loaded images d) hfuel'
    obtain ⟨before, hsaid⟩ := hlast.said
    have hbracket := bracketed_left ht.channel hnotes (Noted.refl _)
    have htalk := talk_of_shifted ht.channel hplain.channel
    have hheld : FlushBlind.held t.channel.device = [] := by
      rw [ht.channel.device]
      exact slices_flushed (isRunning_loaded images d) hslices
    exact ⟨_, [], .halted ⟨fuel', n, u, hsteps, hstep, hlast⟩
      ⟨before, htalk.produced.trans hsaid⟩ hheld, hbracket, htalk⟩
  | @reported t f hf w hw =>
    cases hshift with
    | @error _ _ t' ht =>
    cases hplain with
    | @error _ t'' _ hplain =>
    -- The flush before the report is part of what happened in raw mode.
    let c := t.channel.after (Console.flush t.channel.device) fun _ => .flush
    let c' := t'.channel.after (Console.flush t'.channel.device) fun _ => .flush
    have hc : Shifted (opening paths terminal) [] c c' := by
      rcases (Shifted.exchanges Console.flush fun _ => .flush).alike _ _ ht.channel with h | h
      · exact h.elim
      · exact h.2
    have hbracket := bracketed_left hc (hnotes.after rfl fun _ _ => rfl) hw
    have hdevice : w.channel.device = c.device := hw.device
    have htalk : SameTalk ⟨w.channel.device, c'.journal.toList.toArray⟩ t''.channel := by
      rw [hdevice]
      exact talk_of_shifted hc (hplain.channel.trans (sameTalk_flush t'.channel).symm)
    have hflush : ∃ earlier, c'.journal.toList = earlier ++ [.call .flush] := by
      rw [toList_journal_after, ← List.append_assoc]
      exact ⟨_, rfl⟩
    have hheld : FlushBlind.held w.channel.device = [] := by
      rw [hdevice]
      exact FlushBlind.held_flush t.channel.device
    refine ⟨_, _, ?_, hbracket, htalk⟩
    rw [ofFault_eq]
    exact .failed hf hflush hheld
  | passedOn t hf =>
    cases hshift with
    | @error _ _ t' ht =>
    cases hplain with
    | @error _ t'' _ hplain =>
    have hbracket := bracketed_left ht.channel hnotes (Noted.refl _)
    have htalk := talk_of_shifted ht.channel hplain.channel
    exact ⟨_, [], .passedOn hf, hbracket, htalk⟩
  | signalled t =>
    cases hshift with
    | @error _ _ t' ht =>
    exact absurd hslices (runInSlices_quiet _ _ _ _)
  | outOfFuel t =>
    cases hshift with
    | @error _ _ t' ht =>
    exact absurd ⟨t', rfl⟩ hq'.lasting

/-- A session whose images load ends if and only if the plain run of the loaded machine does. It
settles as that run ended, it asks the terminal for raw mode before the run and for the old mode
after it, and the program has had the same talk and has produced the same bytes. -/
theorem launch_ends_as_run {paths : List String} {files : FileReader} {images : List Image}
    (hpaths : paths ≠ []) (himages : Holds files paths images) (d : σ) {terminal : τ}
    (henter : (ModeControl.enter terminal).answer = .ok ())
    (hleave : (ModeControl.leave (ModeControl.enter terminal).device).answer = .ok ()) :
    (Ends (launching paths files) (⟨{ device := d }, terminal⟩ : Session σ τ) ↔
        Ends run (loaded images d)) ∧
      ∀ r r', EndsIn (launching paths files) (⟨{ device := d }, terminal⟩ : Session σ τ) r →
        EndsIn run (loaded images d) r' →
          ∃ during report, Settles (loaded images d) during report r' r ∧
            Bracketed paths terminal during report (leftBy r) ∧
            SameTalk ⟨(leftBy r).channel.device, during.toArray⟩ (leftBy r').channel := by
  obtain ⟨c, hc, hlaunch⟩ := launch_raw (d := d) hpaths himages henter hleave
  let start : System σ := ⟨(loaded images d).machine, c⟩
  have hstart : OnSameMachine (Shifted (opening paths terminal) []) start (loaded images d) :=
    ⟨rfl, hc⟩
  have hstart' : OnSameMachine (Shifted [] (opening paths terminal)) (loaded images d) start := by
    obtain ⟨events, hevents, hevents'⟩ := hc.journal
    exact ⟨rfl, hc.device.symm, events, hevents', hevents⟩
  have hraw : ∀ fuel, RawEnding (ModeControl.enter terminal).device
      (runInSlices sliceSize fuel start) (launching paths files fuel ⟨{ device := d }, terminal⟩) :=
    hlaunch false false
  have hsize : 1 ≤ sliceSize := by decide
  have hagree : ∀ (before before' : List Event) (fuel : Nat), ∃ fuel', Agree (fun _ => False)
      (OnSameMachine (Shifted before before')) (runInSlices sliceSize fuel : MachineM σ Unit)
      (runInSlices sliceSize fuel') := fun _ _ fuel => ⟨fuel, Shifted.agree _ fuel⟩
  refine ⟨⟨?_, ?_⟩, ?_⟩
  · rintro ⟨_, ⟨fuel, rfl⟩, hlast⟩
    have hlast' := fun hout => hlast ((hraw fuel).outOfFuel_iff.1 hout)
    obtain ⟨q', hq', -⟩ := (endsIn_of_lasting hlast').agree (hagree _ _) hstart
    exact (slices_end_iff hsize).1 ⟨q', hq'⟩
  · intro hends
    obtain ⟨q', hq'⟩ := (slices_end_iff hsize).2 hends
    obtain ⟨_, ⟨⟨fuel, rfl⟩, hlast⟩, -⟩ := hq'.agree (hagree _ _) hstart'
    exact ⟨_, endsIn_of_lasting fun hout => hlast ((hraw fuel).outOfFuel_iff.2 hout)⟩
  · rintro _ r' ⟨⟨fuel, rfl⟩, hlast⟩ hr'
    have hlast' := fun hout => hlast ((hraw fuel).outOfFuel_iff.1 hout)
    obtain ⟨q', hq', hshift⟩ := (endsIn_of_lasting hlast').agree (hagree _ _) hstart
    exact settles_of_raw (hraw fuel) hshift hq' hr' (slices_alike hsize hr' hq')

end Launching

/-- A file with one instruction, which halts the machine. -/
def haltFile : FileReader := fun _ _ => .ok [0x00, 0x00, 0xf0, 0x25]

theorem launch_ends_as_run_haltFile :
    Ends (launching ["halt"] haltFile) (⟨{ device := {} }, {}⟩ : Session Queue ScriptedMode) ∧
      ∀ r r', EndsIn (launching ["halt"] haltFile)
          (⟨{ device := {} }, {}⟩ : Session Queue ScriptedMode) r →
        EndsIn run (loaded [⟨0, [0xf025]⟩] {}) r' →
          ∃ during report, Settles (loaded [⟨0, [0xf025]⟩] {}) during report r' r ∧
            Bracketed ["halt"] ({} : ScriptedMode) during report (leftBy r) ∧
            SameTalk ⟨(leftBy r).channel.device, during.toArray⟩ (leftBy r').channel := by
  have himages : Holds haltFile ["halt"] [⟨0, [0xf025]⟩] := .cons rfl .nil
  have hrun : ¬OutOfFuel (run 2 (loaded [⟨0, [0xf025]⟩] ({} : Queue))) := by decide +kernel
  obtain ⟨hends, hsettles⟩ := launch_ends_as_run (List.cons_ne_nil _ _) himages ({} : Queue)
    (show (ModeControl.enter ({} : ScriptedMode)).answer = .ok () from rfl) rfl
  exact ⟨hends.2 ⟨_, endsIn_of_lasting hrun⟩, hsettles⟩

end LC3.Session
