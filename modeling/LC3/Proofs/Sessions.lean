import LC3.Session
import LC3.Proofs.Halting

/-!
# Sessions, layer by layer

What each layer of a session comes to, given what the layer below came to. The journal is described
by the events that a layer adds.
-/

namespace LC3

namespace Session

variable {σ τ α : Type}

/-- From `s` to `u` nothing happened but that events were noted. -/
structure Noted (events : List Event) (s u : Session σ τ) : Prop where
  device : u.channel.device = s.channel.device
  terminal : u.terminal = s.terminal
  journal : u.channel.journal.toList = s.channel.journal.toList ++ events

theorem Noted.refl (s : Session σ τ) : Noted [] s s := ⟨rfl, rfl, (List.append_nil _).symm⟩

theorem Noted.trans {events events' : List Event} {s u v : Session σ τ} (h : Noted events s u)
    (h' : Noted events' u v) : Noted (events ++ events') s v := by
  refine ⟨h'.device.trans h.device, h'.terminal.trans h.terminal, ?_⟩
  rw [h'.journal, h.journal, List.append_assoc]

/-- The events tell what was left. -/
theorem Noted.unique {events : List Event} {s u v : Session σ τ} (hu : Noted events s u)
    (hv : Noted events s v) : u = v := by
  obtain ⟨⟨d, j⟩, t⟩ := u
  obtain ⟨⟨d', j'⟩, t'⟩ := v
  obtain rfl : d = d' := hu.device.trans hv.device.symm
  obtain rfl : t = t' := hu.terminal.trans hv.terminal.symm
  obtain rfl : j = j' := Array.ext' (hu.journal.trans hv.journal.symm)
  rfl

theorem note_eq (event : Event) (s : Session σ τ) :
    ∃ u, note event s = .ok () u ∧ Noted [event] s u := by
  obtain ⟨⟨d, j⟩, t⟩ := s
  exact ⟨⟨⟨d, j.push event⟩, t⟩, rfl, rfl, rfl, Array.toList_push⟩

/-! ## Loading -/

/-- Paths that all lead to images, and the images. -/
inductive Holds : FileReader → List String → List Image → Prop where
  | nil {files : FileReader} : Holds files [] []
  | cons {files : FileReader} {path : String} {image : Image} {paths : List String}
      {images : List Image} (hopen : Image.open? files path = .ok image)
      (h : Holds (files.behind [path]) paths images) :
    Holds files (path :: paths) (image :: images)

/-- Every path leads to an image, or there is a first that does not. -/
theorem holds_or_fails (files : FileReader) (paths : List String) :
    (∃ images, Holds files paths images) ∨ ∃ good path rest images f,
      paths = good ++ path :: rest ∧ Holds files good images ∧
        Image.open? (files.behind good) path = .error f := by
  induction paths generalizing files with
  | nil => exact .inl ⟨[], .nil⟩
  | cons path paths ih =>
    rcases hopen : Image.open? files path with f | image
    · exact .inr ⟨[], path, paths, [], f, rfl, .nil, hopen⟩
    · rcases ih (files.behind [path]) with
        ⟨images, himages⟩ | ⟨good, bad, rest, images, f, rfl, himages, hbad⟩
      · exact .inl ⟨image :: images, .cons hopen himages⟩
      · exact .inr ⟨path :: good, bad, rest, image :: images, f, rfl, .cons hopen himages, hbad⟩

theorem gather_cons_of_ok {files : FileReader} {path : String} {image : Image}
    (hopen : Image.open? files path = .ok image) {paths : List String}
    {result : Except Fault (List Image)} {events : List Event}
    (h : ∀ s : Session σ τ, ∃ u, gather (files.behind [path]) paths s = .ok result u ∧
      Noted events s u) (s : Session σ τ) :
    ∃ u, gather files (path :: paths) s = .ok (result.map (image :: ·)) u ∧
      Noted (.opened path :: events) s u := by
  obtain ⟨v, hnote, hv⟩ := note_eq (.opened path) s
  obtain ⟨u, hgather, hu⟩ := h v
  refine ⟨u, ?_, hv.trans hu⟩
  unfold gather
  rw [bind_of_ok hnote]
  simp only [hopen]
  rw [bind_of_ok hgather]
  cases result with
  | ok images => rfl
  | error f => rfl

theorem gather_of_holds {files : FileReader} {paths : List String} {images : List Image}
    (h : Holds files paths images) (s : Session σ τ) :
    ∃ u, gather files paths s = .ok (.ok images) u ∧ Noted (paths.map .opened) s u := by
  induction h generalizing s with
  | nil => exact ⟨s, rfl, Noted.refl s⟩
  | cons hopen _ ih => exact gather_cons_of_ok hopen ih s

theorem gather_of_fails {files : FileReader} {good : List String} {images : List Image}
    (hgood : Holds files good images) {path : String} {f : Fault}
    (hbad : Image.open? (files.behind good) path = .error f) (rest : List String)
    (s : Session σ τ) :
    ∃ u, gather files (good ++ path :: rest) s = .ok (.error f) u ∧
      Noted ((good ++ [path]).map .opened) s u := by
  induction hgood generalizing s with
  | @nil files =>
    obtain ⟨u, hnote, hu⟩ := note_eq (.opened path) s
    have hopen : Image.open? files path = .error f := hbad
    refine ⟨u, ?_, hu⟩
    show gather files (path :: rest) s = _
    unfold gather
    rw [bind_of_ok hnote]
    simp only [hopen]
    rfl
  | cons hopen _ ih => exact gather_cons_of_ok hopen (ih hbad) s

theorem prepare_of_ok {job : Job} (hpaths : job.paths ≠ []) {images : List Image}
    {s u : Session σ τ} (h : gather job.files job.paths s = .ok (.ok images) u) :
    prepare job s = .ok (.ok ((Machine.fresh Machine.defaultOrigin).loadAll images)) u := by
  have hsome : ¬job.paths.isEmpty = true := fun hempty => hpaths (List.isEmpty_iff.1 hempty)
  unfold prepare
  rw [if_neg hsome, bind_of_ok h]
  rfl

theorem prepare_of_error {job : Job} (hpaths : job.paths ≠ []) {f : Fault}
    (hf : f.isForeign = false) {s u : Session σ τ}
    (h : gather job.files job.paths s = .ok (.error f) u) :
    ∃ v, prepare job s = .ok (.error .failure) v ∧ Noted [.error (.text f.message)] u v := by
  have hsome : ¬job.paths.isEmpty = true := fun hempty => hpaths (List.isEmpty_iff.1 hempty)
  obtain ⟨v, hnote, hv⟩ := note_eq (.error (.text f.message)) u
  refine ⟨v, ?_, hv⟩
  unfold prepare
  rw [if_neg hsome, bind_of_ok h]
  simp only [hf]
  exact bind_of_ok hnote

theorem prepare_of_foreign {job : Job} (hpaths : job.paths ≠ []) {f : Fault}
    (hf : f.isForeign = true) {s u : Session σ τ}
    (h : gather job.files job.paths s = .ok (.error f) u) :
    prepare job s = .error (.fault f) u := by
  have hsome : ¬job.paths.isEmpty = true := fun hempty => hpaths (List.isEmpty_iff.1 hempty)
  unfold prepare
  rw [if_neg hsome, bind_of_ok h]
  simp only [hf]
  rfl

theorem prepare_of_nil {job : Job} (hpaths : job.paths = []) (s : Session σ τ) :
    ∃ u, prepare job s = .ok (.error .usage) u ∧ Noted [.log usage] s u := by
  have hnone : job.paths.isEmpty = true := List.isEmpty_iff.2 hpaths
  obtain ⟨u, hnote, hu⟩ := note_eq (.log usage) s
  refine ⟨u, ?_, hu⟩
  unfold prepare
  rw [if_pos hnone]
  exact bind_of_ok hnote

/-- What loading comes to that ended with `f` when the files `opened` had been opened: the user is
told, unless the fault is foreign and is passed on. -/
inductive Unprepared (opened : List String) (f : Fault) (s : Session σ τ) :
    EStateM.Result Stop (Session σ τ) (Except ExitCode Machine) → Prop where
  | reported {u : Session σ τ} (hf : f.isForeign = false)
      (h : Noted (opened.map .opened ++ [.error (.text f.message)]) s u) :
    Unprepared opened f s (.ok (.error .failure) u)
  | foreign {u : Session σ τ} (hf : f.isForeign = true) (h : Noted (opened.map .opened) s u) :
    Unprepared opened f s (.error (.fault f) u)

/-- The first file that gives no image is the last that is opened. -/
theorem prepare_of_fails {job : Job} {good rest : List String} {path : String}
    (hpaths : job.paths = good ++ path :: rest) {images : List Image}
    (hgood : Holds job.files good images) {f : Fault}
    (hbad : Image.open? (job.files.behind good) path = .error f) (s : Session σ τ) :
    Unprepared (good ++ [path]) f s (prepare job s) := by
  obtain ⟨u, hgather, hu⟩ := gather_of_fails hgood hbad rest s
  have hsome : job.paths ≠ [] := by
    rw [hpaths]
    exact List.append_ne_nil_of_right_ne_nil _ (List.cons_ne_nil _ _)
  rw [← hpaths] at hgather
  cases hf : f.isForeign with
  | true => exact (prepare_of_foreign hsome hf hgather).symm ▸ .foreign hf hu
  | false =>
    obtain ⟨v, hprepare, hv⟩ := prepare_of_error hsome hf hgather
    exact hprepare.symm ▸ .reported hf (hu.trans hv)

theorem prepare_of_holds {job : Job} (hpaths : job.paths ≠ []) {images : List Image}
    (himages : Holds job.files job.paths images) (s : Session σ τ) :
    ∃ u, prepare job s = .ok (.ok ((Machine.fresh Machine.defaultOrigin).loadAll images)) u ∧
      Noted (job.paths.map .opened) s u := by
  obtain ⟨u, hgather, hu⟩ := gather_of_holds himages s
  exact ⟨u, prepare_of_ok hpaths hgather, hu⟩

/-! ## Raw mode -/

/-- After a terminal was asked for a mode and complied. -/
def requested (mode : ModeRequest) (reply : Reply τ Unit) (s : Session σ τ) : Session σ τ :=
  ⟨⟨s.channel.device, Journal.noteTraffic (s.channel.journal.push (.mode mode)) reply.traffic⟩,
    reply.device⟩

/-- The events of a request. -/
def requestEvents (mode : ModeRequest) (reply : Reply τ Unit) : List Event :=
  .mode mode :: reply.traffic.map .host

theorem toList_journal_requested (mode : ModeRequest) (reply : Reply τ Unit) (s : Session σ τ) :
    (s.requested mode reply).channel.journal.toList =
      s.channel.journal.toList ++ requestEvents mode reply := by
  show (Journal.noteTraffic (s.channel.journal.push (.mode mode)) reply.traffic).toList = _
  rw [Journal.toList_noteTraffic, Array.toList_push, List.append_assoc]
  rfl

theorem request_of_ok {mode : ModeRequest} {operation : τ → Reply τ Unit} {s : Session σ τ}
    (h : (operation s.terminal).answer = .ok ()) :
    request mode operation s = .ok () (s.requested mode (operation s.terminal)) := by
  unfold request requested
  simp only [h]

theorem request_of_error {mode : ModeRequest} {operation : τ → Reply τ Unit} {s : Session σ τ}
    {f : Fault} (h : (operation s.terminal).answer = .error f) :
    request mode operation s = .error (.fault f) (s.requested mode (operation s.terminal)) := by
  unfold request requested
  simp only [h]

section RawMode

variable [ModeControl τ]

/-- The session in raw mode. -/
def entered (s : Session σ τ) : Session σ τ := s.requested .enter (ModeControl.enter s.terminal)

/-- The session out of raw mode. -/
def left (s : Session σ τ) : Session σ τ := s.requested .leave (ModeControl.leave s.terminal)

variable {compute : SessionM σ τ α} {s u : Session σ τ}

theorem enterRaw_of_ok (h : (ModeControl.enter s.terminal).answer = .ok ()) :
    enterRaw s = .ok () s.entered := request_of_ok h

theorem leaveRaw_of_ok (h : (ModeControl.leave s.terminal).answer = .ok ()) :
    leaveRaw s = .ok () s.left := request_of_ok h

theorem leaveRaw_of_error {f : Fault} (h : (ModeControl.leave s.terminal).answer = .error f) :
    leaveRaw s = .error (.fault f) s.left := request_of_error h

/-- A terminal that refuses to enter raw mode is not put back. -/
theorem inRawMode_of_refused {f : Fault} (h : (ModeControl.enter s.terminal).answer = .error f) :
    inRawMode compute s = .error (.fault f) s.entered := bind_of_error (request_of_error h)

theorem inRawMode_of_ok (henter : (ModeControl.enter s.terminal).answer = .ok ()) {a : α}
    (h : compute s.entered = .ok a u) (hleave : (ModeControl.leave u.terminal).answer = .ok ()) :
    inRawMode compute s = .ok a u.left := by
  unfold inRawMode
  rw [bind_of_ok (enterRaw_of_ok henter), bind_of_ok (Stop.catchFault_of_ok _ h),
    bind_of_ok (leaveRaw_of_ok hleave)]
  rfl

theorem inRawMode_of_fault (henter : (ModeControl.enter s.terminal).answer = .ok ()) {f : Fault}
    (h : compute s.entered = .error (.fault f) u)
    (hleave : (ModeControl.leave u.terminal).answer = .ok ()) :
    inRawMode compute s = .error (.fault f) u.left := by
  unfold inRawMode
  rw [bind_of_ok (enterRaw_of_ok henter)]
  refine bind_of_error ?_
  rw [Stop.catchFault_of_fault _ h, bind_of_ok (leaveRaw_of_ok hleave)]
  rfl

theorem inRawMode_of_signal (henter : (ModeControl.enter s.terminal).answer = .ok ())
    (h : compute s.entered = .error .signal u) : inRawMode compute s = .error .signal u := by
  unfold inRawMode
  rw [bind_of_ok (enterRaw_of_ok henter)]
  exact bind_of_error (Stop.catchFault_of_signal _ h)

theorem inRawMode_of_outOfFuel (henter : (ModeControl.enter s.terminal).answer = .ok ())
    (h : compute s.entered = .error .outOfFuel u) :
    inRawMode compute s = .error .outOfFuel u := by
  unfold inRawMode
  rw [bind_of_ok (enterRaw_of_ok henter)]
  exact bind_of_error (Stop.catchFault_of_outOfFuel _ h)

end RawMode

/-! ## Running -/

section Running

variable {job : Job} {machine : Machine} {s : Session σ τ} {t : System σ}

theorem onMachine_of_ok {compute : MachineM σ α} {a : α}
    (h : compute ⟨machine, s.channel⟩ = .ok a t) :
    onMachine machine compute s = .ok a ⟨t.channel, s.terminal⟩ := by
  unfold onMachine
  simp only [h]

theorem onMachine_of_error {compute : MachineM σ α} {e : Stop}
    (h : compute ⟨machine, s.channel⟩ = .error e t) :
    onMachine machine compute s = .error e ⟨t.channel, s.terminal⟩ := by
  unfold onMachine
  simp only [h]

variable [Console σ]

/-- The run that a job asks for. -/
def runOf (job : Job) : MachineM σ Unit :=
  MachineM.runInterruptibly job.fuel sliceSize job.signalWaiting

theorem execute_of_ok (h : runOf job ⟨machine, s.channel⟩ = .ok () t) :
    execute job machine s = .ok .ok ⟨t.channel, s.terminal⟩ :=
  Stop.catchFault_of_ok _ (bind_of_ok (onMachine_of_ok h))

theorem execute_of_fault {f : Fault} (h : runOf job ⟨machine, s.channel⟩ = .error (.fault f) t) :
    execute job machine s = settle f ⟨t.channel, s.terminal⟩ :=
  Stop.catchFault_of_fault _ (bind_of_error (onMachine_of_error h))

theorem execute_of_signal (h : runOf job ⟨machine, s.channel⟩ = .error .signal t) :
    execute job machine s = .error .signal ⟨t.channel, s.terminal⟩ :=
  Stop.catchFault_of_signal _ (bind_of_error (onMachine_of_error h))

theorem execute_of_outOfFuel (h : runOf job ⟨machine, s.channel⟩ = .error .outOfFuel t) :
    execute job machine s = .error .outOfFuel ⟨t.channel, s.terminal⟩ :=
  Stop.catchFault_of_outOfFuel _ (bind_of_error (onMachine_of_error h))

theorem settle_of_foreign {f : Fault} (hf : f.isForeign = true) (s : Session σ τ) :
    settle f s = .error (.fault f) s := by
  unfold settle
  rw [if_pos hf]
  rfl

/-- The session after a flush of its console. -/
def flushed (s : Session σ τ) : Session σ τ :=
  ⟨s.channel.after (Console.flush s.channel.device) fun _ => .flush, s.terminal⟩

theorem flush_of_ok (h : (Console.flush s.channel.device).answer = .ok ()) :
    atChannel Channel.flush s = .ok () s.flushed := by
  unfold atChannel
  have hflush : Channel.flush s.channel = .ok () s.flushed.channel := exchange_of_ok _ h
  simp only [hflush]
  rfl

theorem settle_of_vm {f : Fault} (hf : f.isForeign = false)
    (hflush : (Console.flush s.channel.device).answer = .ok ()) :
    ∃ u, settle f s = .ok (.ofFault f) u ∧ Noted [.error (.text f.message)] s.flushed u := by
  obtain ⟨u, hnote, hu⟩ := note_eq (.error (.text f.message)) s.flushed
  refine ⟨u, ?_, hu⟩
  unfold settle
  rw [if_neg (Bool.eq_false_iff.1 hf)]
  exact (bind_of_ok (flush_of_ok hflush)).trans (bind_of_ok hnote)

variable [ModeControl τ]

/-- What a run in raw mode makes of the ending of its machine. -/
inductive RawEnding (terminal : τ) : EStateM.Result Stop (System σ) Unit →
    EStateM.Result Stop (Session σ τ) ExitCode → Prop where
  /-- The machine halted. -/
  | halted (t : System σ) :
    RawEnding terminal (.ok () t) (.ok .ok (left ⟨t.channel, terminal⟩))
  /-- The user was told why the machine failed. -/
  | reported (t : System σ) {f : Fault} (hf : f.isForeign = false) {w : Session σ τ}
      (hw : Noted [.error (.text f.message)] (flushed ⟨t.channel, terminal⟩) w) :
    RawEnding terminal (.error (.fault f) t) (.ok (.ofFault f) w.left)
  /-- The fault is passed on. -/
  | passedOn (t : System σ) {f : Fault} (hf : f.isForeign = true) :
    RawEnding terminal (.error (.fault f) t) (.error (.fault f) (left ⟨t.channel, terminal⟩))
  /-- A signal took control away. -/
  | signalled (t : System σ) :
    RawEnding terminal (.error .signal t) (.error .signal ⟨t.channel, terminal⟩)
  /-- The fuel did not last. -/
  | outOfFuel (t : System σ) :
    RawEnding terminal (.error .outOfFuel t) (.error .outOfFuel ⟨t.channel, terminal⟩)

theorem RawEnding.outOfFuel_iff {terminal : τ} {q : EStateM.Result Stop (System σ) Unit}
    {r : EStateM.Result Stop (Session σ τ) ExitCode} (h : RawEnding terminal q r) :
    OutOfFuel q ↔ OutOfFuel r := by
  unfold OutOfFuel
  cases h <;> simp

/-- A fault that is passed on leaves the terminal put back. -/
theorem RawEnding.terminal_of_fault {terminal : τ} {q : EStateM.Result Stop (System σ) Unit}
    {f : Fault} {u : Session σ τ} (h : RawEnding terminal q (.error (.fault f) u)) :
    u.terminal = (ModeControl.leave terminal).device := by
  cases h with
  | passedOn t hf => rfl

theorem RawEnding.unique {terminal : τ} {q : EStateM.Result Stop (System σ) Unit}
    {r r' : EStateM.Result Stop (Session σ τ) ExitCode} (h : RawEnding terminal q r)
    (h' : RawEnding terminal q r') : r = r' := by
  cases h with
  | halted t =>
    cases h' with
    | halted => rfl
  | reported t hf hw =>
    cases h' with
    | reported _ _ hw' => rw [hw.unique hw']
    | passedOn _ hf' => cases hf.symm.trans hf'
  | passedOn t hf =>
    cases h' with
    | reported _ hf' _ => cases hf.symm.trans hf'
    | passedOn => rfl
  | signalled t =>
    cases h' with
    | signalled => rfl
  | outOfFuel t =>
    cases h' with
    | outOfFuel => rfl

theorem inRawMode_execute (hflush : ∀ d : σ, (Console.flush d).answer = .ok ())
    (henter : (ModeControl.enter s.terminal).answer = .ok ())
    (hleave : (ModeControl.leave s.entered.terminal).answer = .ok ()) (job : Job)
    (machine : Machine) :
    RawEnding s.entered.terminal (runOf job ⟨machine, s.entered.channel⟩)
      (inRawMode (execute job machine) s) := by
  rcases hrun : runOf job ⟨machine, s.entered.channel⟩ with ⟨_, t⟩ | ⟨f | _ | _, t⟩
  · rw [inRawMode_of_ok henter (execute_of_ok hrun) hleave]
    exact .halted t
  · cases hf : f.isForeign with
    | true =>
      have hsettle := (execute_of_fault hrun).trans (settle_of_foreign hf _)
      rw [inRawMode_of_fault henter hsettle hleave]
      exact .passedOn t hf
    | false =>
      obtain ⟨w, hsettle, hw⟩ := settle_of_vm (s := ⟨t.channel, s.entered.terminal⟩) hf (hflush _)
      have hleave' : (ModeControl.leave w.terminal).answer = .ok () := by
        rw [hw.terminal]
        exact hleave
      rw [inRawMode_of_ok henter ((execute_of_fault hrun).trans hsettle) hleave']
      exact .reported t hf hw
  · rw [inRawMode_of_signal henter (execute_of_signal hrun)]
    exact .signalled t
  · rw [inRawMode_of_outOfFuel henter (execute_of_outOfFuel hrun)]
    exact .outOfFuel t

theorem launch_of_ready {job : Job} {s u : Session σ τ} (h : prepare job s = .ok (.ok machine) u) :
    launch job s = inRawMode (execute job machine) u := bind_of_ok h

theorem launch_of_unready {job : Job} {s u : Session σ τ} {code : ExitCode}
    (h : prepare job s = .ok (.error code) u) : launch job s = .ok code u := bind_of_ok h

theorem launch_of_unprepared {job : Job} {s u : Session σ τ} {e : Stop}
    (h : prepare job s = .error e u) : launch job s = .error e u := bind_of_error h

/-! ## The command -/

section Command

variable {job : Job} {s u : Session σ τ}

/-- How a command ends is settled by its launch. -/
theorem command_congr {job' : Job} (hgiven : job.terminalGiven = job'.terminalGiven)
    (h : launch job s = launch job' s) : command job s = command job' s := by
  have hconclude : conclude job s = conclude job' s := by
    unfold conclude
    rw [hgiven]
    simp only [Stop.catchFault, h]
  simp only [command, Stop.catchFault, Stop.catchSignal, hconclude]

theorem command_of_ok {code : ExitCode} (h : launch job s = .ok code u) :
    command job s = .ok code u := by
  have hconclude : conclude job s = .ok code u := Stop.catchFault_of_ok _ h
  exact Stop.catchFault_of_ok _ (Stop.catchSignal_of_ok _ hconclude)

/-- A fault is reported after the terminal was put back once more. -/
theorem conclude_of_fault {f : Fault} (hgiven : job.terminalGiven = true)
    (hleave : (ModeControl.leave u.terminal).answer = .ok ())
    (h : launch job s = .error (.fault f) u) :
    ∃ v, conclude job s = .ok .failure v ∧ Noted [.error (.fault f)] u.left v := by
  obtain ⟨v, hnote, hv⟩ := note_eq (.error (.fault f)) u.left
  refine ⟨v, ?_, hv⟩
  unfold conclude
  rw [Stop.catchFault_of_fault _ h, if_pos hgiven]
  exact (bind_of_ok (leaveRaw_of_ok hleave)).trans (bind_of_ok hnote)

/-- Without a terminal to put back it is reported at once. -/
theorem conclude_of_fault_not_given {f : Fault} (hgiven : job.terminalGiven = false)
    (h : launch job s = .error (.fault f) u) :
    ∃ v, conclude job s = .ok .failure v ∧ Noted [.error (.fault f)] u v := by
  obtain ⟨v, hnote, hv⟩ := note_eq (.error (.fault f)) u
  refine ⟨v, ?_, hv⟩
  unfold conclude
  rw [Stop.catchFault_of_fault _ h, if_neg (Bool.eq_false_iff.1 hgiven)]
  exact bind_of_ok hnote

/-- If the terminal cannot be put back its own fault takes the place of the report. -/
theorem conclude_of_stuck {f g : Fault} (hgiven : job.terminalGiven = true)
    (hleave : (ModeControl.leave u.terminal).answer = .error g)
    (h : launch job s = .error (.fault f) u) : conclude job s = .error (.fault g) u.left := by
  unfold conclude
  rw [Stop.catchFault_of_fault _ h, if_pos hgiven]
  exact bind_of_error (leaveRaw_of_error hleave)

theorem command_of_fault {f : Fault} (hgiven : job.terminalGiven = true)
    (hleave : (ModeControl.leave u.terminal).answer = .ok ())
    (h : launch job s = .error (.fault f) u) :
    ∃ v, command job s = .ok .failure v ∧ Noted [.error (.fault f)] u.left v := by
  obtain ⟨v, hconclude, hv⟩ := conclude_of_fault hgiven hleave h
  exact ⟨v, Stop.catchFault_of_ok _ (Stop.catchSignal_of_ok _ hconclude), hv⟩

theorem command_of_stuck {f g : Fault} (hgiven : job.terminalGiven = true)
    (hleave : (ModeControl.leave u.terminal).answer = .error g)
    (h : launch job s = .error (.fault f) u) : command job s = .ok .failure u.left := by
  have hconclude := conclude_of_stuck hgiven hleave h
  exact Stop.catchFault_of_fault _ (Stop.catchSignal_of_fault _ hconclude)

theorem command_of_signal (hflush : (Console.flush u.channel.device).answer = .ok ())
    (hleave : (ModeControl.leave u.terminal).answer = .ok ())
    (h : launch job s = .error .signal u) :
    ∃ v, command job s = .ok .interrupted v ∧ Noted [.host (.output [0x0a])] u.flushed.left v := by
  obtain ⟨v, hnote, hv⟩ := note_eq (.host (.output [0x0a])) u.flushed.left
  have hinterrupt : interrupt u = .ok .interrupted v := by
    unfold interrupt
    rw [bind_of_ok (flush_of_ok hflush), bind_of_ok (leaveRaw_of_ok (s := u.flushed) hleave),
      bind_of_ok hnote]
    rfl
  have hconclude : conclude job s = .error .signal u := Stop.catchFault_of_signal _ h
  have hsignal := (Stop.catchSignal_of_signal interrupt hconclude).trans hinterrupt
  exact ⟨v, Stop.catchFault_of_ok _ hsignal, hv⟩

theorem command_of_outOfFuel (h : launch job s = .error .outOfFuel u) :
    command job s = .error .outOfFuel u := by
  have hconclude : conclude job s = .error .outOfFuel u := Stop.catchFault_of_outOfFuel _ h
  exact Stop.catchFault_of_outOfFuel _ (Stop.catchSignal_of_outOfFuel _ hconclude)

end Command

end Running

end Session

end LC3
