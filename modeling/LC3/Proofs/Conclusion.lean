import LC3.Proofs.RawMode

/-!
# Outcomes that get lost

`conclude` turns whatever `launch` comes to into an exit code, and reports a fault. It puts the
terminal back before it reports, and the terminal may fail there as well. Then the fault of the
terminal is passed on: the fault of the launch is never reported, and there is no exit code. A host
whose terminal cannot be switched at all gets there with every program.
-/

namespace LC3

/-! ## Terminals that fail -/

namespace Tty

variable {stdin : Stdin}

theorem enter_of_failing (hobeys : stdin.obeys = true) {text : String}
    (hfailure : stdin.failure = some text) :
    enter { stdin } =
      { answer := .error (.foreign text)
        device := { stdin, saved := some (stdin.isRaw.getD false) }
        traffic := [.rawMode true] } := by
  obtain ⟨isTTY, isRaw, switchable, tracks, failure⟩ := stdin
  subst hfailure
  cases isTTY with
  | false => cases hobeys
  | true =>
    cases switchable with
    | false => cases hobeys
    | true => rfl

theorem leave_of_failing (hobeys : stdin.obeys = true) {text : String}
    (hfailure : stdin.failure = some text) (mode : Bool) :
    leave { stdin, saved := some mode } =
      { answer := .error (.foreign text)
        device := { stdin, saved := some mode }
        traffic := [.rawMode mode] } := by
  obtain ⟨isTTY, isRaw, switchable, tracks, failure⟩ := stdin
  subst hfailure
  cases isTTY with
  | false => cases hobeys
  | true =>
    cases switchable with
    | false => cases hobeys
    | true => rfl

/-- A terminal that is never switched has nothing to go back to, and one that does not fail has
nothing any more. -/
theorem saved_of_not_failing (h : stdin.failure = none ∨ stdin.obeys = false) :
    (enter { stdin }).answer = .ok () ∧ (leave (enter { stdin }).device).answer = .ok () ∧
      (leave (enter { stdin }).device).device.saved = none := by
  rcases h with hfailure | hobeys
  · exact ⟨(enter_of_working hfailure).1, (leave_of_working hfailure).1, saved_of_working hfailure⟩
  · have henter : enter { stdin } = { answer := .ok (), device := { stdin } } :=
      if_neg (Bool.eq_false_iff.1 hobeys)
    rw [henter]
    exact ⟨rfl, rfl, rfl⟩

end Tty

namespace Session

/-! ## Outcomes -/

section Outcomes

variable {σ τ : Type} [Console σ] [ModeControl τ]

/-- The outcome of a launch is recorded: its exit code, or the code for failure with a report of its
fault as the last event. -/
structure RecordsOutcome (job : Job) (s : Session σ τ) : Prop where
  code : ∀ code u, launch job s = .ok code u → conclude job s = .ok code u
  fault : ∀ f u, launch job s = .error (.fault f) u → ∃ events v,
    conclude job s = .ok .failure v ∧
      v.channel.journal.toList = u.channel.journal.toList ++ events ++ [.error (.fault f)]

variable {job : Job} {s : Session σ τ}

theorem recordsOutcome_iff :
    RecordsOutcome job s ↔ ∀ f u, launch job s = .error (.fault f) u → job.terminalGiven = true →
      (ModeControl.leave u.terminal).answer = .ok () := by
  constructor
  · intro hrecords f u hlaunch hgiven
    cases hleave : (ModeControl.leave u.terminal).answer with
    | ok _ => rfl
    | error g =>
      obtain ⟨events, v, hconclude, -⟩ := hrecords.fault f u hlaunch
      cases hconclude.symm.trans (conclude_of_stuck hgiven hleave hlaunch)
  · intro hback
    refine ⟨fun code u hlaunch => Stop.catchFault_of_ok _ hlaunch, fun f u hlaunch => ?_⟩
    cases hgiven : job.terminalGiven with
    | true =>
      obtain ⟨v, hconclude, hv⟩ := conclude_of_fault hgiven (hback f u hlaunch hgiven) hlaunch
      have hleft : u.left.channel.journal.toList =
          u.channel.journal.toList ++ requestEvents .leave (ModeControl.leave u.terminal) :=
        toList_journal_requested ..
      exact ⟨_, v, hconclude, by rw [hv.journal, hleft]⟩
    | false =>
      obtain ⟨v, hconclude, hv⟩ := conclude_of_fault_not_given hgiven hlaunch
      exact ⟨[], v, hconclude, by rw [hv.journal, List.append_nil]⟩

/-- The outcome of a launch is recorded exactly if a terminal that was given can be put back after a
fault. If it cannot, the session ends with the fault of the terminal and without an exit code, and
the request to the terminal is the last that is noted. -/
theorem conclude_records_unless_stuck (job : Job) (s : Session σ τ) :
    (RecordsOutcome job s ↔ ∀ f u, launch job s = .error (.fault f) u → job.terminalGiven = true →
      (ModeControl.leave u.terminal).answer = .ok ()) ∧
    ∀ f g u, launch job s = .error (.fault f) u → job.terminalGiven = true →
      (ModeControl.leave u.terminal).answer = .error g →
        ∃ v, conclude job s = .error (.fault g) v ∧ v.channel.journal.toList =
          u.channel.journal.toList ++ requestEvents .leave (ModeControl.leave u.terminal) := by
  refine ⟨recordsOutcome_iff, fun f g u hlaunch hgiven hleave => ?_⟩
  exact ⟨u.left, conclude_of_stuck hgiven hleave hlaunch, toList_journal_requested ..⟩

end Outcomes

/-! ## The command -/

section Command

variable {paths : List String} {files : FileReader} {images : List Image} {stdin : Stdin}

/-- A terminal that fails is found out before the program runs. -/
theorem launch_of_failing (hpaths : paths ≠ []) (himages : Holds files paths images)
    (hobeys : stdin.obeys = true) {text : String} (hfailure : stdin.failure = some text)
    (keys : List Keystroke) (signalWaiting : Bool) (fuel : Nat) :
    ∃ u : Session Line Tty,
      launch { paths, files, terminalGiven := true, signalWaiting, fuel }
          ⟨{ device := { keys } }, { stdin }⟩ = .error (.fault (.foreign text)) u ∧
        u.terminal = { stdin, saved := some (stdin.isRaw.getD false) } ∧
        u.channel.journal.toList =
          paths.map .opened ++ [.mode .enter, .host (.rawMode true)] := by
  have henter := Tty.enter_of_failing hobeys hfailure
  let job : Job := { paths, files, terminalGiven := true, signalWaiting, fuel }
  let s : Session Line Tty := ⟨{ device := { keys } }, { stdin }⟩
  obtain ⟨⟨c, terminal⟩, hprepare, -, hterminal, hjournal⟩ :=
    prepare_of_holds (show job.paths ≠ [] from hpaths) himages s
  obtain rfl : terminal = { stdin } := hterminal
  let u : Session Line Tty := ⟨c, { stdin }⟩
  have hanswer : (ModeControl.enter u.terminal).answer = .error (.foreign text) :=
    congrArg Reply.answer henter
  have hentered : u.entered.channel.journal.toList =
      c.journal.toList ++ requestEvents .enter (Tty.enter { stdin }) :=
    toList_journal_requested _ _ u
  refine ⟨u.entered, ?_, congrArg Reply.device henter, ?_⟩
  · exact (launch_of_ready hprepare).trans (inRawMode_of_refused hanswer)
  · rw [hentered, hjournal, henter]
    rfl

/-- The command records the outcome of every session that does not get as far as a terminal that
fails. -/
theorem commandLine_records_iff {keys : List Keystroke} {signalWaiting : Bool} {fuel : Nat} :
    RecordsOutcome { paths, files, terminalGiven := true, signalWaiting, fuel }
        (⟨{ device := { keys } }, { stdin }⟩ : Session Line Tty) ↔
      stdin.failure = none ∨ stdin.obeys = false ∨ paths = [] ∨
        ¬∃ images, Holds files paths images := by
  rw [recordsOutcome_iff]
  constructor
  · intro hback
    refine Classical.byContradiction fun hnot => ?_
    simp only [not_or] at hnot
    obtain ⟨hworks, hobeys, hpaths, hloaded⟩ := hnot
    obtain ⟨text, hfailure⟩ := Option.ne_none_iff_exists'.1 hworks
    obtain ⟨images, himages⟩ := Classical.not_not.1 hloaded
    obtain ⟨u, hlaunch, hterminal, -⟩ := launch_of_failing hpaths himages
      (Bool.of_not_eq_false hobeys) hfailure keys signalWaiting fuel
    have hanswer := hback _ u hlaunch rfl
    rw [hterminal] at hanswer
    have hleave := Tty.leave_of_failing (Bool.of_not_eq_false hobeys) hfailure
      (stdin.isRaw.getD false)
    cases hanswer.symm.trans (congrArg Reply.answer hleave)
  · intro h f u hlaunch _
    by_cases hready : paths = [] ∨ ¬∃ images, Holds files paths images
    · obtain ⟨r, hr, hsame⟩ := launch_unlaunched hready keys stdin
      obtain rfl := (hsame signalWaiting fuel).symm.trans hlaunch
      cases hr with
      | foreign hterminal =>
        rw [hterminal]
        rfl
    · obtain ⟨hpaths, hloaded⟩ := not_or.1 hready
      obtain ⟨images, himages⟩ := Classical.not_not.1 hloaded
      have hworks : stdin.failure = none ∨ stdin.obeys = false := by
        rcases h with h | h | h
        · exact .inl h
        · exact .inr h
        · exact absurd h hready
      obtain ⟨henter, hleave, hsaved⟩ := Tty.saved_of_not_failing hworks
      obtain ⟨c, -, hraw⟩ := launch_raw (d := ({ keys } : Line)) hpaths himages henter hleave
      have hterminal := (hlaunch ▸ hraw true signalWaiting fuel).terminal_of_fault
      rw [hterminal]
      exact congrArg Reply.answer (Tty.leave_of_saved hsaved)

/-- Whatever the program is, a terminal that fails leaves nothing but the code for failure. What
failed is not reported. -/
theorem commandLine_of_failing (hpaths : paths ≠ []) (himages : Holds files paths images)
    (hobeys : stdin.obeys = true) {text : String} (hfailure : stdin.failure = some text)
    (keys : List Keystroke) (signalWaiting : Bool) (fuel : Nat) :
    ∃ final, commandLine paths files signalWaiting fuel ⟨{ device := { keys } }, { stdin }⟩ =
        .ok .failure final ∧
      final.channel.journal.toList = paths.map .opened ++
        [.mode .enter, .host (.rawMode true), .mode .leave,
          .host (.rawMode (stdin.isRaw.getD false))] := by
  obtain ⟨⟨c, terminal⟩, hlaunch, hterminal, hjournal⟩ :=
    launch_of_failing hpaths himages hobeys hfailure keys signalWaiting fuel
  obtain rfl : terminal = _ := hterminal
  let u : Session Line Tty := ⟨c, { stdin, saved := some (stdin.isRaw.getD false) }⟩
  have hleave := Tty.leave_of_failing hobeys hfailure (stdin.isRaw.getD false)
  have hanswer : (ModeControl.leave u.terminal).answer = .error (.foreign text) :=
    congrArg Reply.answer hleave
  have hleft : u.left.channel.journal.toList =
      c.journal.toList ++ requestEvents .leave (Tty.leave u.terminal) :=
    toList_journal_requested _ _ u
  refine ⟨u.left, command_of_stuck rfl hanswer hlaunch, ?_⟩
  rw [hleft, hjournal, hleave, List.append_assoc]
  rfl

/-- A terminal that fails takes the place of the report. -/
theorem outcome_lost_haltFile :
    ¬RecordsOutcome { paths := ["halt"], files := haltFile, terminalGiven := true, fuel := 1 }
      (⟨{ device := {} }, { stdin := { isTTY := true, failure := some "EIO" } }⟩ :
        Session Line Tty) := by
  rw [commandLine_records_iff]
  rintro (h | h | h | h)
  · cases h
  · cases h
  · cases h
  · exact h ⟨[⟨0, [0xf025]⟩], .cons rfl .nil⟩

end Command

end Session

end LC3
