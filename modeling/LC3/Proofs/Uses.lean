import LC3.Proofs.FlushBlind

/-!
# Using a console

Whoever holds a console may call its four operations in any order and as often as they like, and may
go on with the same console after a call that failed. What has been called for, and what it came to,
stands in the journal. On a console that refuses no byte, what was pushed out and what is held back
make up the bytes that were handed over.
-/

namespace LC3

variable {σ α : Type}

/-- A call of one of the four operations of a console. -/
inductive Use where
  | read
  | poll
  | write (code : Int)
  | flush
  deriving DecidableEq, Repr

/-- The bytes that a use hands over. -/
def Use.bytes : Use → List UInt8
  | write code => [UInt8.ofInt code]
  | _ => []

namespace Channel

/-- The channel that a computation leaves, complete or not. -/
def leaving (x : ChannelM σ α) (c : Channel σ) : Channel σ :=
  match x c with
  | .ok _ d => d
  | .error _ d => d

theorem leaving_exchange (operation : σ → Reply σ α) (call : Except Fault α → Call)
    (c : Channel σ) :
    leaving (exchange operation call) c = c.after (operation c.device) call := by
  unfold leaving
  cases ha : (operation c.device).answer with
  | ok a => rw [exchange_of_ok call ha]
  | error f => rw [exchange_of_error call ha]

variable [Console σ]

/-- The channel behind a use of the console. -/
def use (c : Channel σ) : Use → Channel σ
  | .read => leaving read c
  | .poll => leaving poll c
  | .write code => leaving (write code) c
  | .flush => leaving flush c

/-- The channel behind several uses of the console, in order. -/
def useAll (c : Channel σ) (uses : List Use) : Channel σ := uses.foldl use c

@[simp]
theorem use_read (c : Channel σ) : c.use .read = c.after (Console.read c.device) .read :=
  leaving_exchange ..

@[simp]
theorem use_poll (c : Channel σ) : c.use .poll = c.after (Console.poll c.device) .poll :=
  leaving_exchange ..

@[simp]
theorem use_write (c : Channel σ) (code : Int) :
    c.use (.write code) = c.after (Console.write code c.device) fun _ => .write code :=
  leaving_exchange ..

@[simp]
theorem use_flush (c : Channel σ) :
    c.use .flush = c.after (Console.flush c.device) fun _ => .flush := leaving_exchange ..

/-- What each of several uses keeps holds behind all of them. -/
theorem useAll_keeps {P : Channel σ → Prop} {uses : List Use}
    (hstep : ∀ c, ∀ u ∈ uses, P c → P (c.use u)) {c : Channel σ} (h : P c) :
    P (c.useAll uses) :=
  List.foldlRecOn uses use h fun c hc u hu => hstep c u hu hc

end Channel

/-! ## Output -/

/-- What grows at its end with every step grows by what the steps add, in their order. -/
theorem foldl_appends {S A B : Type} {step : S → A → S} {seen : S → List B} {adds : A → List B}
    (hstep : ∀ s a, seen (step s a) = seen s ++ adds a) (s : S) (as : List A) :
    seen (as.foldl step s) = seen s ++ as.flatMap adds := by
  induction as generalizing s with
  | nil => exact (List.append_nil _).symm
  | cons a as ih => rw [List.foldl_cons, ih, hstep, List.append_assoc, List.flatMap_cons]

/-- A console that never refuses a byte. -/
def Accepting (σ : Type) [Console σ] : Prop :=
  ∀ (code : Int) (d : σ), (Console.write code d).answer = .ok ()

theorem accepting_queue : Accepting Queue := fun _ _ => rfl

theorem accepting_line : Accepting Line := fun code line => (Line.write_quiet code line).1

/-- The uses that hand over a text. -/
def Use.text (text : String) : List Use := (Text.units text).map fun unit : Nat => .write unit

/-- Where no byte is refused, a text is handed over to its end. -/
theorem leaving_writeText [Console σ] (h : Accepting σ) (text : String) (c : Channel σ) :
    Channel.leaving (Channel.writeText text) c = c.useAll (Use.text text) := by
  unfold Channel.writeText Use.text
  induction Text.units text generalizing c with
  | nil => rfl
  | cons unit units ih =>
    have hwrite : Channel.write unit c = .ok () (c.use (.write unit)) := by
      rw [Channel.use_write]
      exact exchange_of_ok _ (h unit c.device)
    show Channel.leaving (do Channel.write unit; Channel.writeAll units) c = _
    unfold Channel.leaving
    rw [bind_of_ok hwrite]
    exact ih _

section Output

variable [Console σ] [FlushBlind σ]

theorem produced_use (h : Accepting σ) (c : Channel σ) (u : Use) :
    produced (c.use u) = produced c ++ u.bytes := by
  cases u with
  | read =>
    rw [Channel.use_read]
    exact (FlushBlind.output_read c).trans (List.append_nil _).symm
  | poll =>
    rw [Channel.use_poll]
    exact (FlushBlind.output_poll c).trans (List.append_nil _).symm
  | write code =>
    rw [Channel.use_write]
    have houtput := FlushBlind.output_write code c
    rw [h] at houtput
    exact houtput
  | flush =>
    rw [Channel.use_flush]
    exact (produced_flush c).trans (List.append_nil _).symm

/-- Nothing that was handed over is lost, and nothing is reordered. -/
theorem produced_useAll (h : Accepting σ) (c : Channel σ) (uses : List Use) :
    produced (c.useAll uses) = produced c ++ uses.flatMap Use.bytes :=
  foldl_appends (produced_use h) c uses

end Output

end LC3
