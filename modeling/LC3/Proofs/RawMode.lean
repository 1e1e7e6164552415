import LC3.Proofs.EndToEnd

/-!
# Raw mode

A session of the command switches its terminal into raw mode at most once and then back exactly
once, to the mode that it was found in. Three parts of the session put the terminal back, and more
than one of them may get the chance: `Tty` has nothing to go back to any more after the first.
-/

namespace LC3

/-- The modes that a terminal was switched to. -/
def Traffic.switched : Traffic → List Bool
  | .rawMode on => [on]
  | _ => []

/-- The modes that a terminal was switched to. -/
def Event.switched : Event → List Bool
  | .host t => t.switched
  | _ => []

/-- All modes that a terminal was switched to, in order. -/
def Journal.switches (j : Journal) : List Bool := j.toList.flatMap Event.switched

/-! ## The terminal -/

/-- Whether the mode of an input can be changed at all. -/
def Stdin.obeys (input : Stdin) : Bool := input.isTTY && input.switchable

/-- What is left to send to the terminal of an input: nothing if it does not obey. -/
def Stdin.sends (input : Stdin) (on : Bool) : List Traffic :=
  if input.obeys then [.rawMode on] else []

namespace Tty

variable {stdin : Stdin} (hfailure : stdin.failure = none)

include hfailure

theorem enter_of_working :
    (enter { stdin }).answer = .ok () ∧ (enter { stdin }).traffic = stdin.sends true := by
  obtain ⟨isTTY, isRaw, switchable, tracks, failure⟩ := stdin
  subst hfailure
  cases isTTY <;> cases switchable <;> exact ⟨rfl, rfl⟩

theorem leave_of_working :
    (leave (enter { stdin }).device).answer = .ok () ∧
      (leave (enter { stdin }).device).traffic = stdin.sends (stdin.isRaw.getD false) := by
  obtain ⟨isTTY, isRaw, switchable, tracks, failure⟩ := stdin
  subst hfailure
  cases isTTY <;> cases switchable <;> cases tracks <;> exact ⟨rfl, rfl⟩

/-- There is nothing to go back to a second time. -/
theorem saved_of_working : (leave (enter { stdin }).device).device.saved = none := by
  obtain ⟨isTTY, isRaw, switchable, tracks, failure⟩ := stdin
  subst hfailure
  cases isTTY <;> cases switchable <;> cases tracks <;> rfl

omit hfailure in
theorem leave_of_saved {tty : Tty} (h : tty.saved = none) :
    leave tty = { answer := .ok (), device := tty } := by
  unfold leave
  rw [h]

end Tty

theorem Line.causes : Causes Line fun e => e.switched = [] := by
  have hkey : ∀ t : Traffic, t.isKey = true → t.switched = [] := by
    intro t ht
    cases t with
    | key k => rfl
    | output chunk => cases ht
    | rawMode on => cases ht
  have hflush : ∀ line : Line, ∀ t ∈ (Line.flush line).traffic, t.switched = [] := by
    intro line t ht
    rw [Line.flush_eq] at ht
    by_cases hempty : line.buffer.isEmpty
    · rw [if_pos hempty] at ht
      cases ht
    · rw [if_neg hempty] at ht
      rw [List.mem_singleton.1 ht]
      rfl
  have hread : ∀ line : Line, ∀ t ∈ (Line.read line).traffic, t.switched = [] := by
    intro line t ht
    rcases List.mem_append.1 ht with ht | ht
    · exact hflush line t ht
    · exact hkey t (Line.isKey_nextKey _ t ht)
  have hwrite : ∀ (code : Int) (line : Line), ∀ t ∈ (Line.write code line).traffic,
      t.switched = [] := by
    intro code line t ht
    rcases Line.write_cases code line with h | h
    · rw [h] at ht
      exact hflush _ t ht
    · rw [h] at ht
      cases ht
  exact ⟨fun _ => rfl, rfl, hread, hread, hwrite, hflush⟩

/-! ## The journal of a session -/

namespace Session

variable {σ τ : Type}

section PutBack

variable [ModeControl τ]

/-- Putting a terminal back comes behind all that was noted before. -/
theorem journal_left {before after : List Event} {P : Event → Prop} {u v : Session σ τ}
    (hu : Notes before P u.channel) (hv : Noted after u.left v) :
    ∃ during, v.channel.journal.toList =
        before ++ during ++ requestEvents .leave (ModeControl.leave u.terminal) ++ after ∧
      ∀ e ∈ during, P e := by
  obtain ⟨during, hjournal, hduring⟩ := hu
  refine ⟨during, ?_, hduring⟩
  have hleft : u.left.channel.journal.toList =
      u.channel.journal.toList ++ requestEvents .leave (ModeControl.leave u.terminal) :=
    toList_journal_requested _ _ u
  rw [hv.journal, hleft, hjournal]

/-- Where there is nothing to go back to, a request is all that is noted. -/
theorem noted_left {u : Session σ τ}
    (h : ModeControl.leave u.terminal = { answer := .ok (), device := u.terminal }) :
    Noted [.mode .leave] u u.left := by
  refine ⟨rfl, ?_, ?_⟩
  · show (ModeControl.leave u.terminal).device = u.terminal
    rw [h]
  · show (u.requested .leave (ModeControl.leave u.terminal)).channel.journal.toList = _
    rw [toList_journal_requested, h]
    rfl

end PutBack

/-- One use of the command. -/
def commandLine (paths : List String) (files : FileReader) (signalWaiting : Bool) (fuel : Nat) :
    SessionM Line Tty ExitCode :=
  command { paths, files, terminalGiven := true, signalWaiting, fuel }

/-- Events that a program has no part in, and that switch no mode. All the output among them is
`chunks`. -/
structure Aside (chunks : List (List UInt8)) (events : List Event) : Prop where
  silent : ∀ e ∈ events, e.isTalk = false
  still : ∀ e ∈ events, e.switched = []
  output : events.flatMap Event.chunks = chunks

theorem aside_nil : Aside [] [] :=
  ⟨fun _ he => absurd he List.not_mem_nil, fun _ he => absurd he List.not_mem_nil, rfl⟩

/-- What the command makes of a run in raw mode. -/
theorem command_of_raw {stdin : Stdin} (hfailure : stdin.failure = none) {job : Job}
    (hgiven : job.terminalGiven = true) {s : Session Line Tty}
    {q : EStateM.Result Stop (System Line) Unit} {before : List Event}
    (hraw : RawEnding (Tty.enter { stdin }).device q (launch job s))
    (hnotes : Notes before (fun e => e.switched = []) (leftBy q).channel) (hlast : ¬OutOfFuel q) :
    ∃ code final during tail after, command job s = .ok code final ∧
      final.channel.journal.toList =
        before ++ during ++ requestEvents .leave (Tty.leave (Tty.enter { stdin }).device) ++ after ∧
      (∀ e ∈ during, e.switched = []) ∧ Aside tail after ∧
      (tail = [] ∨ (∃ t, q = .error .signal t) ∧ code = .interrupted ∧ tail = [[0x0a]]) := by
  obtain ⟨hleave, -⟩ := Tty.leave_of_working hfailure
  have hagain := Tty.leave_of_saved (Tty.saved_of_working hfailure)
  generalize htty : (Tty.enter { stdin }).device = tty at *
  generalize hr : launch job s = r at hraw
  cases hraw with
  | halted t =>
    let u : Session Line Tty := ⟨t.channel, tty⟩
    obtain ⟨during, hjournal, hduring⟩ := journal_left (u := u) hnotes (Noted.refl _)
    exact ⟨_, _, during, [], [], command_of_ok hr, hjournal, hduring, aside_nil, .inl rfl⟩
  | @reported t f hf w hw =>
    have hflushed : Notes before (fun e => e.switched = [])
        (t.channel.after (Console.flush t.channel.device) fun _ => .flush) :=
      hnotes.after rfl (Line.causes.flush _)
    have hnoted : Notes before (fun e => e.switched = []) w.channel := by
      refine hflushed.add hw.journal fun e he => ?_
      rw [List.mem_singleton.1 he]
      rfl
    obtain ⟨during, hjournal, hduring⟩ := journal_left hnoted (Noted.refl _)
    have hterminal : w.terminal = tty := hw.terminal
    rw [hterminal] at hjournal
    exact ⟨_, _, during, [], [], command_of_ok hr, hjournal, hduring, aside_nil, .inl rfl⟩
  | @passedOn t f hf =>
    let u : Session Line Tty := ⟨t.channel, tty⟩
    have hu : ModeControl.leave u.left.terminal = { answer := .ok (), device := u.left.terminal } :=
      hagain
    have hanswer : (ModeControl.leave u.left.terminal).answer = .ok () := by rw [hu]
    obtain ⟨v, hcommand, hv⟩ := command_of_fault hgiven hanswer hr
    obtain ⟨during, hjournal, hduring⟩ := journal_left (u := u) hnotes ((noted_left hu).trans hv)
    refine ⟨_, v, during, [], _, hcommand, hjournal, hduring, ⟨?_, ?_, rfl⟩, .inl rfl⟩
    · simp [Event.isTalk]
    · simp [Event.switched]
  | signalled t =>
    let u : Session Line Tty := ⟨t.channel, tty⟩
    have hflushed : Notes before (fun e => e.switched = []) u.flushed.channel :=
      hnotes.after rfl (Line.causes.flush _)
    obtain ⟨v, hcommand, hv⟩ := command_of_signal (FlushBlind.answer_flush _) hleave hr
    obtain ⟨during, hjournal, hduring⟩ := journal_left hflushed hv
    refine ⟨_, v, during, [[0x0a]], _, hcommand, hjournal, hduring, ⟨?_, ?_, rfl⟩,
      .inr ⟨⟨t, rfl⟩, rfl, rfl⟩⟩
    · simp [Event.isTalk, Traffic.isKey]
    · simp [Event.switched, Traffic.switched]
  | outOfFuel t => exact absurd ⟨t, rfl⟩ hlast

theorem switched_between {before during after : List Event}
    (hbefore : ∀ e ∈ before, e.switched = []) (hduring : ∀ e ∈ during, e.switched = [])
    (hafter : ∀ e ∈ after, e.switched = [])
    (on off : List Traffic) :
    (before ++ (on.map Event.host ++ (during ++ (off.map Event.host ++ after)))).flatMap
        Event.switched =
      on.flatMap Traffic.switched ++ off.flatMap Traffic.switched := by
  have hhost : ∀ traffic : List Traffic,
      (traffic.map Event.host).flatMap Event.switched = traffic.flatMap Traffic.switched :=
    fun _ => List.flatMap_map ..
  rw [List.flatMap_append, List.flatMap_append, List.flatMap_append, List.flatMap_append, hhost,
    hhost, List.flatMap_eq_nil_iff.2 hbefore, List.flatMap_eq_nil_iff.2 hduring,
    List.flatMap_eq_nil_iff.2 hafter, List.nil_append, List.nil_append, List.append_nil]

theorem aside_opened (paths : List String) :
    Aside [] (paths.map Event.opened ++ [.mode .enter]) := by
  have hcases : ∀ e ∈ paths.map Event.opened ++ [.mode .enter],
      e.isTalk = false ∧ e.switched = [] ∧ e.chunks = [] := by
    intro e he
    rcases List.mem_append.1 he with he | he
    · obtain ⟨_, -, rfl⟩ := List.mem_map.1 he
      exact ⟨rfl, rfl, rfl⟩
    · rw [List.mem_singleton.1 he]
      exact ⟨rfl, rfl, rfl⟩
  exact ⟨fun e he => (hcases e he).1, fun e he => (hcases e he).2.1,
    List.flatMap_eq_nil_iff.2 fun e he => (hcases e he).2.2⟩

/-- The journal of a session whose images load. -/
theorem commandLine_journal {paths : List String} {files : FileReader} {images : List Image}
    (hpaths : paths ≠ []) (himages : Holds files paths images) {keys : List Keystroke}
    {stdin : Stdin} (hfailure : stdin.failure = none) {signalWaiting : Bool} {fuel : Nat}
    (hlast : ¬OutOfFuel (commandLine paths files signalWaiting fuel
      ⟨{ device := { keys } }, { stdin }⟩)) :
    ∃ code final before during tail after,
      commandLine paths files signalWaiting fuel ⟨{ device := { keys } }, { stdin }⟩ =
          .ok code final ∧
        final.channel.journal.toList =
          before ++ ((stdin.sends true).map .host ++
            (during ++ ((stdin.sends (stdin.isRaw.getD false)).map .host ++ after))) ∧
        Aside [] before ∧ (∀ e ∈ during, e.switched = []) ∧ Aside tail after ∧
        (tail = [] ∨ signalWaiting = true ∧ code = .interrupted ∧ tail = [[0x0a]]) := by
  obtain ⟨henter, hsent⟩ := Tty.enter_of_working hfailure
  obtain ⟨hleave, hsent'⟩ := Tty.leave_of_working hfailure
  obtain ⟨c, hc, hlaunch⟩ := launch_raw (d := ({ keys } : Line)) hpaths himages henter hleave
  let start : System Line := ⟨(loaded images ({ keys } : Line)).machine, c⟩
  have hstart : Notes (opening paths ({ stdin } : Tty)) (fun e => e.switched = [])
      start.channel := by
    obtain ⟨events, hevents, hnil⟩ := hc.journal
    obtain rfl : events = [] := by simpa using hnil.symm
    exact ⟨[], hevents, fun _ he => absurd he List.not_mem_nil⟩
  have hnotes := Line.causes.notes fuel sliceSize signalWaiting hstart
  have hraw := hlaunch true signalWaiting fuel
  have hlast' : ¬OutOfFuel (MachineM.runInterruptibly fuel sliceSize signalWaiting start) := by
    intro hout
    obtain ⟨u, hu⟩ := hraw.outOfFuel_iff.1 hout
    exact hlast ⟨u, command_of_outOfFuel hu⟩
  obtain ⟨code, final, during, tail, after, hr, hjournal, hduring, hafter, htail⟩ :=
    command_of_raw hfailure rfl hraw hnotes hlast'
  have htail' : tail = [] ∨ signalWaiting = true ∧ code = .interrupted ∧ tail = [[0x0a]] := by
    rcases htail with htail | ⟨⟨t, hsignal⟩, hcode, htail⟩
    · exact .inl htail
    · cases signalWaiting with
      | true => exact .inr ⟨rfl, hcode, htail⟩
      | false => exact absurd hsignal (runInSlices_quiet _ _ _ _)
  refine ⟨code, final, _, during ++ [.mode .leave], tail, after, hr, ?_, aside_opened paths, ?_,
    hafter, htail'⟩
  · rw [hjournal, ← hsent, ← hsent']
    simp only [opening, requestEvents, List.append_assoc, List.cons_append, List.nil_append]
    rfl
  · intro e he
    rcases List.mem_append.1 he with he | he
    · exact hduring e he
    · rw [List.mem_singleton.1 he]
      rfl

/-! ## The modes of a session -/

theorem switches_of_still {j : Journal} (h : ∀ e ∈ j.toList, e.switched = []) : j.switches = [] :=
  List.flatMap_eq_nil_iff.2 h

/-- What a launch comes to that has no machine to run: it is over or passes on a fault, and leaves
the terminal alone. -/
inductive Unlaunched (stdin : Stdin) :
    EStateM.Result Stop (Session Line Tty) ExitCode → Prop where
  | settled {code : ExitCode} {u : Session Line Tty} (hterminal : u.terminal = { stdin })
      (hstill : ∀ e ∈ u.channel.journal.toList, e.switched = []) : Unlaunched stdin (.ok code u)
  | foreign {f : Fault} {u : Session Line Tty} (hterminal : u.terminal = { stdin })
      (hstill : ∀ e ∈ u.channel.journal.toList, e.switched = []) :
    Unlaunched stdin (.error (.fault f) u)

theorem still_opened (paths : List String) :
    ∀ e ∈ paths.map Event.opened, e.switched = [] := by
  intro e he
  obtain ⟨_, -, rfl⟩ := List.mem_map.1 he
  rfl

/-- Without a machine to run no signal gets through. -/
theorem launch_unlaunched {paths : List String} {files : FileReader}
    (h : paths = [] ∨ ¬∃ images, Holds files paths images) (keys : List Keystroke)
    (stdin : Stdin) :
    ∃ r, Unlaunched stdin r ∧ ∀ signalWaiting fuel,
      launch { paths, files, terminalGiven := true, signalWaiting, fuel }
        ⟨{ device := { keys } }, { stdin }⟩ = r := by
  -- Whether a signal waits, and the fuel, have no part in loading.
  let job (signalWaiting : Bool) (fuel : Nat) : Job :=
    { paths, files, terminalGiven := true, signalWaiting, fuel }
  let s : Session Line Tty := ⟨{ device := { keys } }, { stdin }⟩
  have hagree (signalWaiting : Bool) (fuel : Nat) :
      prepare (job signalWaiting fuel) s = prepare (job false 0) s := rfl
  by_cases hpaths : paths = []
  · obtain ⟨u, hprepare, hu⟩ :
        ∃ u, prepare (job false 0) s = .ok (.error .usage) u ∧ Noted [.log usage] s u :=
      prepare_of_nil hpaths s
    have hjournal : u.channel.journal.toList = [.log usage] := hu.journal
    refine ⟨.ok .usage u, .settled hu.terminal fun e he => ?_,
      fun signalWaiting fuel => launch_of_unready ((hagree signalWaiting fuel).trans hprepare)⟩
    rw [hjournal] at he
    rw [List.mem_singleton.1 he]
    rfl
  · obtain ⟨good, bad, rest, images, f, hsplit, hgood, hbad⟩ :=
      (holds_or_fails files paths).resolve_left (h.resolve_left hpaths)
    have hprepared := prepare_of_fails (show (job false 0).paths = _ from hsplit) hgood hbad s
    generalize hprepare : prepare (job false 0) s = r at hprepared
    cases hprepared with
    | @reported v hf hv =>
      have hjournal : v.channel.journal.toList =
          (good ++ [bad]).map .opened ++ [.error (.text f.message)] := hv.journal
      refine ⟨.ok .failure v, .settled hv.terminal fun e he => ?_,
        fun signalWaiting fuel => launch_of_unready ((hagree signalWaiting fuel).trans hprepare)⟩
      rw [hjournal] at he
      rcases List.mem_append.1 he with he | he
      · exact still_opened _ e he
      · rw [List.mem_singleton.1 he]
        rfl
    | @foreign v hf hv =>
      have hjournal : v.channel.journal.toList = (good ++ [bad]).map .opened := hv.journal
      refine ⟨.error (.fault f) v, .foreign hv.terminal fun e he => ?_,
        fun signalWaiting fuel => launch_of_unprepared ((hagree signalWaiting fuel).trans hprepare)⟩
      rw [hjournal] at he
      exact still_opened _ e he

theorem commandLine_unlaunched {paths : List String} {files : FileReader}
    (h : paths = [] ∨ ¬∃ images, Holds files paths images) (keys : List Keystroke)
    (stdin : Stdin) :
    ∃ code final, final.channel.journal.switches = [] ∧ ∀ signalWaiting fuel,
      commandLine paths files signalWaiting fuel ⟨{ device := { keys } }, { stdin }⟩ =
        .ok code final := by
  obtain ⟨r, hr, hlaunch⟩ := launch_unlaunched h keys stdin
  cases hr with
  | @settled code u hterminal hstill =>
    exact ⟨code, u, switches_of_still hstill,
      fun signalWaiting fuel => command_of_ok (hlaunch signalWaiting fuel)⟩
  | @foreign f u hterminal hstill =>
    obtain ⟨c, terminal⟩ := u
    obtain rfl : terminal = { stdin } := hterminal
    have hleave : (ModeControl.leave ({ stdin } : Tty)).answer = .ok () := rfl
    obtain ⟨v, hcommand, hv⟩ := command_of_fault rfl hleave (hlaunch false 0)
    have hleft : (Session.left ⟨c, ({ stdin } : Tty)⟩).channel.journal.toList =
        c.journal.toList ++ [.mode .leave] := toList_journal_requested _ _ _
    refine ⟨.failure, v, switches_of_still fun e he => ?_, fun signalWaiting fuel => ?_⟩
    · rw [hv.journal, hleft] at he
      rcases List.mem_append.1 he with he | he
      · rcases List.mem_append.1 he with he | he
        · exact hstill e he
        · rw [List.mem_singleton.1 he]
          rfl
      · rw [List.mem_singleton.1 he]
        rfl
    · have hsame := (hlaunch signalWaiting fuel).trans (hlaunch false 0).symm
      rw [← hcommand]
      exact command_congr rfl hsame

/-- Raw mode lies around everything that a program does: there is one switch into raw mode and one
to `mode`, and the program has no part in what comes before the first and behind the second. -/
structure Brackets (mode : Bool) (tail : List (List UInt8)) (events : List Event) : Prop where
  split : ∃ before during after,
    events = before ++ .host (.rawMode true) :: (during ++ .host (.rawMode mode) :: after) ∧
      Aside [] before ∧ (∀ e ∈ during, e.switched = []) ∧ Aside tail after

/-- Every use of the command that ends leaves the terminal in the mode in which it was found. If the
input does not obey, no image is named or they do not all load, no mode is ever switched. Otherwise
the terminal is switched to raw mode and back, once each, around all that the program does. Only a
signal shows anything after that, the end of a line. -/
theorem commandLine_brackets_raw_mode {paths : List String} {files : FileReader}
    {signalWaiting : Bool} {keys : List Keystroke} {stdin : Stdin} (hfailure : stdin.failure = none)
    {r : EStateM.Result Stop (Session Line Tty) ExitCode}
    (hr : EndsIn (commandLine paths files signalWaiting) ⟨{ device := { keys } }, { stdin }⟩ r) :
    ∃ code final, r = .ok code final ∧
      ((stdin.isTTY = false ∨ stdin.switchable = false ∨ paths = [] ∨
          ¬∃ images, Holds files paths images) →
        final.channel.journal.switches = []) ∧
      (stdin.isTTY = true → stdin.switchable = true → paths ≠ [] →
          (∃ images, Holds files paths images) →
        final.channel.journal.switches = [true, stdin.isRaw.getD false] ∧
          ∃ tail, Brackets (stdin.isRaw.getD false) tail final.channel.journal.toList ∧
            (tail = [] ∨ signalWaiting = true ∧ code = .interrupted ∧ tail = [[0x0a]])) := by
  obtain ⟨⟨fuel, rfl⟩, hlast⟩ := hr
  by_cases hready : paths = [] ∨ ¬∃ images, Holds files paths images
  · obtain ⟨code, final, hswitches, hcommand⟩ := commandLine_unlaunched hready keys stdin
    exact ⟨code, final, hcommand signalWaiting fuel, fun _ => hswitches,
      fun _ _ hpaths himages => absurd himages (hready.resolve_left hpaths)⟩
  · have hpaths : paths ≠ [] := fun h => hready (.inl h)
    obtain ⟨images, himages⟩ : ∃ images, Holds files paths images :=
      Classical.not_not.1 fun h => hready (.inr h)
    obtain ⟨code, final, before, during, tail, after, hcommand, hjournal, hbefore, hduring,
      hafter, htail⟩ := commandLine_journal hpaths himages hfailure hlast
    have hswitches : final.channel.journal.switches =
        if stdin.obeys then [true, stdin.isRaw.getD false] else [] := by
      unfold Journal.switches
      rw [hjournal, switched_between hbefore.still hduring hafter.still]
      unfold Stdin.sends
      split
      · rfl
      · rfl
    refine ⟨code, final, hcommand, fun h => ?_, fun htty hswitchable _ _ => ?_⟩
    · have hobeys : stdin.obeys = false := by
        unfold Stdin.obeys
        rcases h with h | h | h
        · rw [h]
          rfl
        · rw [h, Bool.and_false]
        · exact absurd h hready
      rw [hswitches, hobeys]
      rfl
    · have hobeys : stdin.obeys = true := by
        unfold Stdin.obeys
        rw [htty, hswitchable]
        rfl
      rw [hobeys] at hswitches
      refine ⟨hswitches, tail, ⟨before, during, after, ?_, hbefore, hduring, hafter⟩, htail⟩
      rw [hjournal]
      unfold Stdin.sends
      rw [hobeys]
      rfl

theorem commandLine_brackets_raw_mode_haltFile :
    ∃ r code final,
      EndsIn (commandLine ["halt"] haltFile true)
          ⟨{ device := { keys := [] } }, { stdin := { isTTY := true } }⟩ r ∧
        r = .ok code final ∧ final.channel.journal.switches = [true, false] := by
  let s : Session Line Tty := ⟨{ device := { keys := [] } }, { stdin := { isTTY := true } }⟩
  have hlast : ¬OutOfFuel (commandLine ["halt"] haltFile true 2 s) := by decide +kernel
  have hends := endsIn_of_lasting hlast
  obtain ⟨code, final, hr, -, hbracketed⟩ := commandLine_brackets_raw_mode rfl hends
  refine ⟨_, code, final, hends, hr, ?_⟩
  exact (hbracketed rfl rfl (List.cons_ne_nil _ _) ⟨[⟨0, [0xf025]⟩], .cons rfl .nil⟩).1

end Session

end LC3
