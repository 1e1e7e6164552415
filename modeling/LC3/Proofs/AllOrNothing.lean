import LC3.Proofs.EndToEnd
import LC3.Proofs.ImageFormat

/-!
# All images or none

A launch opens the files in the order in which they were named. The first that gives no image is the
last that is opened: the user is told which it is and why, and nothing else ever happens. The images
before it reach no machine, and neither the console nor the terminal is called. If every file gives
an image, a machine gets them all and is run.

There is one exception. Whoever reads files may raise a value that has no text, and then there is no
telling why. Asking for the text comes to a fault of its own, and if that is foreign the launch
passes it on and the user is told nothing.
-/

namespace LC3

/-! ## Files that give no image -/

/-- The file at `path` gives no image, and a text tells why. -/
inductive Unloadable (files : FileReader) (path : String) : String → Prop where
  /-- Reading it failed with a message. -/
  | unread {message : String} (h : files [] path = .error (.error message)) :
    Unloadable files path message
  /-- Reading it raised a value that is no error and has a text all the same. -/
  | raised {value : Raised} {text : String} (h : files [] path = .error (.raised value))
      (htext : value.text? = .ok text) : Unloadable files path text
  /-- It was read, and its bytes are no image. -/
  | malformed {bytes : List UInt8} {defect : ImageDefect} (h : files [] path = .ok bytes)
      (hdefect : Image.ofBytes? bytes = .error defect) : Unloadable files path defect.reason

/-- Reading the file at `path` raised a value without a text, and asking for it comes to `f`. -/
def Textless (files : FileReader) (path : String) (f : Fault) : Prop :=
  ∃ value, files [] path = .error (.raised value) ∧ value.text? = .error f

theorem Image.open?_eq_error_iff {files : FileReader} {path : String} {f : Fault} :
    Image.open? files path = .error f ↔
      (∃ reason, Unloadable files path reason ∧ f = .imageLoad path reason) ∨
        Textless files path f := by
  unfold open?
  constructor
  · intro hopen
    cases hfile : files [] path with
    | error failure =>
      rw [hfile] at hopen
      cases failure with
      | error message =>
        cases hopen
        exact .inl ⟨message, .unread hfile, rfl⟩
      | raised value =>
        simp only [ReadFailure.fault] at hopen
        cases htext : value.text? with
        | ok text =>
          rw [htext] at hopen
          cases hopen
          exact .inl ⟨text, .raised hfile htext, rfl⟩
        | error g =>
          rw [htext] at hopen
          cases hopen
          exact .inr ⟨value, hfile, htext⟩
    | ok bytes =>
      rw [hfile] at hopen
      cases hbytes : Image.ofBytes? bytes with
      | ok image => cases hopen.symm.trans (Image.parse_of_ok path hbytes)
      | error defect =>
        cases hopen.symm.trans (Image.parse_of_error path hbytes)
        exact .inl ⟨defect.reason, .malformed hfile hbytes, rfl⟩
  · rintro (⟨reason, hreason, rfl⟩ | ⟨value, hfile, htext⟩)
    · cases hreason with
      | unread hfile =>
        rw [hfile]
        rfl
      | raised hfile htext => simp only [hfile, ReadFailure.fault, htext]
      | malformed hfile hdefect =>
        rw [hfile]
        exact Image.parse_of_error path hdefect
    · simp only [hfile, ReadFailure.fault, htext]

namespace Session

/-! ## Journals only grow -/

variable {σ τ α β : Type}

/-- Nothing that was noted before a computation is taken back by it. -/
def Grows (x : SessionM σ τ α) : Prop :=
  ∀ s, s.channel.journal.toList <+: (leftBy (x s)).channel.journal.toList

theorem Grows.pure (a : α) : Grows (pure a : SessionM σ τ α) := fun _ => List.prefix_rfl

theorem Grows.throw (e : Stop) : Grows (throw e : SessionM σ τ α) := fun _ => List.prefix_rfl

theorem Grows.bind {x : SessionM σ τ α} {f : α → SessionM σ τ β} (hx : Grows x)
    (hf : ∀ a, Grows (f a)) : Grows (x >>= f) := by
  intro s
  have hfirst := hx s
  rcases h : x s with ⟨a, u⟩ | ⟨e, u⟩ <;> rw [h] at hfirst
  · rw [bind_of_ok h]
    exact hfirst.trans (hf a u)
  · rw [bind_of_error h]
    exact hfirst

theorem Grows.catchFault {x : SessionM σ τ α} {f : Fault → SessionM σ τ α} (hx : Grows x)
    (hf : ∀ e, Grows (f e)) : Grows (Stop.catchFault x f) := by
  intro s
  have hfirst := hx s
  rcases h : x s with ⟨a, u⟩ | ⟨e | _ | _, u⟩ <;> rw [h] at hfirst
  · rw [Stop.catchFault_of_ok f h]
    exact hfirst
  · rw [Stop.catchFault_of_fault f h]
    exact hfirst.trans (hf e u)
  · rw [Stop.catchFault_of_signal f h]
    exact hfirst
  · rw [Stop.catchFault_of_outOfFuel f h]
    exact hfirst

theorem grows_request (mode : ModeRequest) (operation : τ → Reply τ Unit) :
    Grows (request mode operation : SessionM σ τ Unit) := by
  intro s
  have hleft : leftBy (request mode operation s) = s.requested mode (operation s.terminal) := by
    rcases h : (operation s.terminal).answer with f | _
    · rw [request_of_error h]
      rfl
    · rw [request_of_ok h]
      rfl
  rw [hleft, toList_journal_requested]
  exact List.prefix_append _ _

theorem grows_note (event : Event) : Grows (note event : SessionM σ τ Unit) := by
  intro s
  obtain ⟨u, hnote, hu⟩ := note_eq event s
  rw [hnote]
  exact ⟨[event], hu.journal.symm⟩

theorem grows_onMachine [Console σ] (job : Job) (machine : Machine) :
    Grows (onMachine machine (runOf job) : SessionM σ τ Unit) := by
  intro s
  have hany : Causes σ fun _ => True :=
    ⟨fun _ => trivial, trivial, fun _ _ _ => trivial, fun _ _ _ => trivial, fun _ _ _ _ => trivial,
      fun _ _ _ => trivial⟩
  have hstart : Notes s.channel.journal.toList (fun _ => True) s.channel :=
    ⟨[], (List.append_nil _).symm, fun _ _ => trivial⟩
  have hrun : s.channel.journal.toList <+:
      (leftBy (runOf job ⟨machine, s.channel⟩)).channel.journal.toList := by
    obtain ⟨events, hevents, -⟩ :=
      hany.notes job.fuel sliceSize job.signalWaiting (s := ⟨machine, s.channel⟩) hstart
    exact ⟨events, hevents.symm⟩
  rcases h : runOf job ⟨machine, s.channel⟩ with ⟨_, t⟩ | ⟨e, t⟩ <;> rw [h] at hrun
  · rw [onMachine_of_ok h]
    exact hrun
  · rw [onMachine_of_error h]
    exact hrun

theorem grows_flush [Console σ] : Grows (atChannel Channel.flush : SessionM σ τ Unit) := by
  intro s
  have hleft : leftBy (atChannel Channel.flush s) = s.flushed := by
    rcases h : (Console.flush s.channel.device).answer with f | _
    · have hflush : Channel.flush s.channel = .error f s.flushed.channel := exchange_of_error _ h
      unfold atChannel
      simp only [hflush]
      rfl
    · rw [flush_of_ok h]
      rfl
  rw [hleft]
  exact ⟨_, (toList_journal_after s.channel _ _).symm⟩

theorem grows_execute [Console σ] (job : Job) (machine : Machine) :
    Grows (execute job machine : SessionM σ τ ExitCode) := by
  refine Grows.catchFault ((grows_onMachine job machine).bind fun _ => Grows.pure _) fun f => ?_
  unfold settle
  split
  · exact Grows.throw _
  · exact grows_flush.bind fun _ => (grows_note _).bind fun _ => Grows.pure _

section Launching

variable [ModeControl τ]

/-- Entering raw mode is noted before anything that a computation in raw mode does. -/
theorem inRawMode_enters {compute : SessionM σ τ α} (hcompute : Grows compute) (s : Session σ τ) :
    s.channel.journal.toList ++ requestEvents .enter (ModeControl.enter s.terminal) <+:
      (leftBy (inRawMode compute s)).channel.journal.toList := by
  rw [← toList_journal_requested]
  show s.entered.channel.journal.toList <+: _
  rcases h : (ModeControl.enter s.terminal).answer with f | _
  · rw [inRawMode_of_refused h]
    exact List.prefix_rfl
  · have hleave : Grows (leaveRaw : SessionM σ τ Unit) := grows_request _ _
    unfold inRawMode
    rw [bind_of_ok (enterRaw_of_ok h)]
    refine Grows.bind ?_ (fun _ => hleave.bind fun _ => Grows.pure _) s.entered
    exact hcompute.catchFault fun f => hleave.bind fun _ => Grows.throw _

variable [Console σ]

/-! ## The launch -/

/-- A launch ends with a failure, and all that has happened is that files were opened up to the one
at `path` and that the user was told `message`. -/
def GivesUp (job : Job) (good : List String) (path message : String) (s : Session σ τ) : Prop :=
  ∃ u, launch job s = .ok .failure u ∧
    Noted (good.map .opened ++ [.opened path, .error (.text message)]) s u

/-- A launch passes on the fault `f`, and all that has happened is that files were opened up to the
one at `path`. -/
def Rejects (job : Job) (good : List String) (path : String) (f : Fault) (s : Session σ τ) : Prop :=
  ∃ u, launch job s = .error (.fault f) u ∧ Noted (good.map .opened ++ [.opened path]) s u

/-- The file at `path` is the first of those to be opened that gives no image. -/
structure FirstBad (job : Job) (good : List String) (path : String) : Prop where
  split : ∃ rest, job.paths = good ++ path :: rest
  holds : ∃ images, Holds job.files good images
  bad : ∃ f, Image.open? (job.files.behind good) path = .error f

omit [ModeControl τ] in
theorem firstBad_or_holds (job : Job) :
    (∃ images, Holds job.files job.paths images) ∨ ∃ good path, FirstBad job good path := by
  rcases holds_or_fails job.files job.paths with himages | ⟨good, path, rest, images, f, hbad⟩
  · exact .inl himages
  · exact .inr ⟨good, path, ⟨rest, hbad.1⟩, ⟨images, hbad.2.1⟩, f, hbad.2.2⟩

theorem FirstBad.launch {job : Job} {good : List String} {path : String} {f : Fault}
    (h : FirstBad job good path) (hopen : Image.open? (job.files.behind good) path = .error f)
    (s : Session σ τ) :
    if f.isForeign then Rejects job good path f s else GivesUp job good path f.message s := by
  obtain ⟨⟨rest, hsplit⟩, ⟨images, himages⟩, -⟩ := h
  have hprepared := prepare_of_fails hsplit himages hopen s
  generalize hprepare : prepare job s = r at hprepared
  cases hprepared with
  | @reported u hf hu =>
    rw [List.map_append, List.append_assoc] at hu
    rw [hf]
    exact ⟨u, launch_of_unready hprepare, hu⟩
  | @foreign u hf hu =>
    rw [List.map_append] at hu
    rw [hf]
    exact ⟨u, launch_of_unprepared hprepare, hu⟩

/-- Behind the opening of all files a launch runs a machine with all images in raw mode, and what it
does there begins with the request to the terminal. -/
structure Starts (job : Job) (images : List Image) (s u : Session σ τ) : Prop where
  holds : Holds job.files job.paths images
  opened : Noted (job.paths.map .opened) s u
  running : ((Machine.fresh Machine.defaultOrigin).loadAll images).isRunning = true
  launches : launch job s =
    inRawMode (execute job ((Machine.fresh Machine.defaultOrigin).loadAll images)) u
  journal : s.channel.journal.toList ++ opening job.paths s.terminal <+:
    (leftBy (launch job s)).channel.journal.toList

/-- A launch loads all images or none. The first file that gives no image ends it with a failure,
whatever the files before it give: no later file is opened, the user is told which file it was and
why, and the console and the terminal are not called. Without such a file the machine is run. The
user is not told if what was raised has no text, and asking for it comes to a foreign fault, which
is passed on. -/
theorem launch_loads_all_or_nothing {job : Job} (hpaths : job.paths ≠ []) (s : Session σ τ) :
    ((∃ images u, Starts job images s u) ∨ ∃ good path, FirstBad job good path) ∧
      ∀ good path, FirstBad job good path →
        ((∃ reason, Unloadable (job.files.behind good) path reason) ∨
          ∃ f, Textless (job.files.behind good) path f) ∧
        (∀ reason, Unloadable (job.files.behind good) path reason →
          GivesUp job good path ("failed to load image: " ++ path ++ " (" ++ reason ++ ")") s) ∧
        ∀ f, Textless (job.files.behind good) path f →
          if f.isForeign then Rejects job good path f s else GivesUp job good path f.message s := by
  refine ⟨?_, fun good path hbad => ⟨?_, fun reason hreason => ?_, fun f hf => ?_⟩⟩
  · rcases firstBad_or_holds job with ⟨images, himages⟩ | hbad
    · obtain ⟨u, hprepare, hu⟩ := prepare_of_holds hpaths himages s
      let machine := (Machine.fresh Machine.defaultOrigin).loadAll images
      have hlaunch : launch job s = inRawMode (execute job machine) u := launch_of_ready hprepare
      have hentered := inRawMode_enters (grows_execute job machine) u
      refine .inl ⟨images, u, himages, hu, isRunning_loaded images s.channel.device, hlaunch, ?_⟩
      rw [hlaunch]
      rw [hu.journal, hu.terminal, List.append_assoc] at hentered
      exact hentered
    · exact .inr hbad
  · obtain ⟨f, hopen⟩ := hbad.bad
    rcases Image.open?_eq_error_iff.1 hopen with ⟨reason, hreason, -⟩ | htextless
    · exact .inl ⟨reason, hreason⟩
    · exact .inr ⟨f, htextless⟩
  · exact hbad.launch (Image.open?_eq_error_iff.2 (.inl ⟨reason, hreason, rfl⟩)) s
  · exact hbad.launch (Image.open?_eq_error_iff.2 (.inr hf)) s

/-- A file with an image that can be read once, one with half a word, and one whose reader raises a
number. -/
def mixedFiles : FileReader := fun earlier path =>
  if path = "halt" ∧ path ∉ earlier then .ok [0x00, 0x00, 0xf0, 0x25]
  else if path = "torn" then .ok [0x30, 0x00, 0xf0]
  else .error (.raised (.number 42 (by decide)))

theorem launch_loads_all_or_nothing_mixedFiles :
    let s : Session Queue ScriptedMode := ⟨{ device := {} }, {}⟩
    let job (paths : List String) : Job := { paths, files := mixedFiles, fuel := 2 }
    GivesUp (job ["halt", "torn", "gone"]) ["halt"] "torn"
        "failed to load image: torn (odd byte length 3)" s ∧
      GivesUp (job ["halt", "halt"]) ["halt"] "halt" "failed to load image: halt (42)" s ∧
      ((∃ images u, Starts (job ["halt"]) images s u) ∨ ∃ good path,
        FirstBad (job ["halt"]) good path) := by
  intro s job
  have hhalt : Holds mixedFiles ["halt"] [⟨0, [0xf025]⟩] := .cons rfl .nil
  have hlaunch (paths : List String) (hpaths : paths ≠ []) :=
    launch_loads_all_or_nothing (show (job paths).paths ≠ [] from hpaths) s
  have htorn : FirstBad (job ["halt", "torn", "gone"]) ["halt"] "torn" :=
    ⟨⟨["gone"], rfl⟩, ⟨_, hhalt⟩, _, rfl⟩
  have hagain : FirstBad (job ["halt", "halt"]) ["halt"] "halt" :=
    ⟨⟨[], rfl⟩, ⟨_, hhalt⟩, _, rfl⟩
  refine ⟨?_, ?_, (hlaunch ["halt"] (List.cons_ne_nil _ _)).1⟩
  · obtain ⟨-, hreported, -⟩ := (hlaunch _ (List.cons_ne_nil _ _)).2 _ _ htorn
    exact hreported (ImageDefect.oddLength 3).reason (.malformed rfl rfl)
  · obtain ⟨-, hreported, -⟩ := (hlaunch _ (List.cons_ne_nil _ _)).2 _ _ hagain
    exact hreported "42" (.raised rfl rfl)

/-- A file whose reader raises a value without a text. -/
def textlessFile : FileReader := fun _ _ =>
  .error (.raised (.textless (.foreign "Cannot convert object to primitive value")))

/-- The user is not told which file it was, for the launch fails as well. -/
theorem failure_untold_textlessFile :
    let s : Session Queue ScriptedMode := ⟨{ device := {} }, {}⟩
    let job : Job := { paths := ["p"], files := textlessFile, fuel := 0 }
    Rejects job [] "p" (.foreign "Cannot convert object to primitive value") s ∧
      ¬∃ message, GivesUp job [] "p" message s := by
  intro s job
  have hbad : FirstBad job [] "p" := ⟨⟨[], rfl⟩, ⟨[], .nil⟩, _, rfl⟩
  have hrejects : Rejects job [] "p" (.foreign "Cannot convert object to primitive value") s :=
    hbad.launch rfl s
  refine ⟨hrejects, ?_⟩
  rintro ⟨message, v, hlaunch, -⟩
  obtain ⟨u, hrejected, -⟩ := hrejects
  cases hrejected.symm.trans hlaunch

end Launching

end Session

end LC3
