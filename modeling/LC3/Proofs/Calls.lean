import LC3.Proofs.Journals
import LC3.Proofs.Reads

/-!
# Calls on the console

The journal tells which calls a machine made of its console, and in which order. `Makes` says it of
a computation, which may have stopped anywhere, and `InTurn` says it of a computation that has a
fixed list of calls to make, of which it leaves out the rest when one of them fails. The services
other than the two that print strings are of this kind.

What the console did at these calls is told by the channels between them: `Reached` goes from answer
to answer, and behind the last of them the console may be the one that fails.
-/

namespace LC3

open MachineM

variable {σ α β : Type}

/-- The call that an event is, if it is one. -/
def Event.call? : Event → Option Call
  | .call c => some c
  | _ => none

/-- The calls on the console, in order. -/
def Journal.calls (j : Journal) : List Call := j.toList.filterMap Event.call?

theorem calls_after (c : Channel σ) (reply : Reply σ α) (call : Except Fault α → Call) :
    (c.after reply call).journal.calls = c.journal.calls ++ [call reply.answer] := by
  have htraffic : (reply.traffic.map Event.host).filterMap Event.call? = [] := by
    rw [List.filterMap_map]
    exact List.filterMap_eq_nil_iff.2 fun _ _ => rfl
  unfold Journal.calls
  rw [toList_journal_after, List.filterMap_append, List.filterMap_append, htraffic]
  rfl

theorem calls_pause (j : Journal) : Journal.calls (j.push .pause) = j.calls := by
  unfold Journal.calls
  rw [Array.toList_push, List.filterMap_append]
  exact List.append_nil _

/-! ## Making calls -/

/-- From `s`, `x` makes the calls `made`, whether it is complete or not. -/
def Makes (x : MachineM σ α) (s : System σ) (made : List Call) : Prop :=
  (leftBy (x s)).channel.journal.calls = s.channel.journal.calls ++ made

variable {x : MachineM σ α} {f : α → MachineM σ β} {s t : System σ} {made made' : List Call}

theorem makes_nothing (h : (leftBy (x s)).channel = s.channel) : Makes x s [] := by
  unfold Makes
  rw [h, List.append_nil]

theorem Makes.bind_ok {a : α} (hx : Makes x s made) (h : x s = .ok a t)
    (hf : Makes (f a) t made') : Makes (x >>= f) s (made ++ made') := by
  unfold Makes at *
  rw [h] at hx
  rw [bind_of_ok h, hf, ← List.append_assoc]
  exact congrArg (· ++ made') hx

theorem Makes.bind_error {e : Stop} (hx : Makes x s made) (h : x s = .error e t) :
    Makes (x >>= f) s made := by
  unfold Makes at *
  rw [h] at hx
  rw [bind_of_error h]
  exact hx

theorem makes_exchange (operation : σ → Reply σ α) (call : Except Fault α → Call) (s : System σ) :
    Makes (atChannel (Channel.exchange operation call)) s
      [call (operation s.channel.device).answer] := by
  unfold Makes
  rw [channel_exchange]
  exact calls_after ..

/-! ## Answers and failures -/

variable [Console σ]

/-- From `c` the console answered a call, which left the channel as it is in `d`. -/
inductive Answered (c d : Channel σ) : Call → Prop where
  | read {code : Int} (h : Channel.read c = .ok code d) : Answered c d (.read (.ok code))
  | poll {key : Option Int} (h : Channel.poll c = .ok key d) : Answered c d (.poll (.ok key))
  | write {code : Int} (h : Channel.write code c = .ok () d) : Answered c d (.write code)
  | flush (h : Channel.flush c = .ok () d) : Answered c d .flush

/-- From `c` the console failed with `g` at a call, which left the channel as it is in `d`. -/
inductive Refused (c : Channel σ) (g : Fault) (d : Channel σ) : Call → Prop where
  | read (h : Channel.read c = .error g d) : Refused c g d (.read (.error g))
  | poll (h : Channel.poll c = .error g d) : Refused c g d (.poll (.error g))
  | write {code : Int} (h : Channel.write code c = .error g d) : Refused c g d (.write code)
  | flush (h : Channel.flush c = .error g d) : Refused c g d .flush

/-- From `c` on the console answered the calls `made`, one behind the other, up to `d`. -/
inductive Reached (c : Channel σ) : List Call → Channel σ → Prop where
  | here : Reached c [] c
  | further {made : List Call} {d e : Channel σ} {call : Call} (h : Reached c made d)
      (answered : Answered d e call) : Reached c (made ++ [call]) e

/-- From `c` on the console answered all of the calls `made` but the last, at which it failed with
`g` and left the channel as it is in `d`. -/
inductive ConsoleFails (c : Channel σ) (g : Fault) (d : Channel σ) : List Call → Prop where
  | last {made : List Call} {e : Channel σ} {call : Call} (reached : Reached c made e)
      (refused : Refused e g d call) : ConsoleFails c g d (made ++ [call])

section Reached

variable {c d e : Channel σ} {made made' : List Call} {g : Fault}

theorem Reached.trans (h : Reached c made d) (h' : Reached d made' e) :
    Reached c (made ++ made') e := by
  induction h' with
  | here =>
    rw [List.append_nil]
    exact h
  | further _ answered ih =>
    rw [← List.append_assoc]
    exact ih.further answered

theorem Reached.fails (h : Reached c made d) (h' : ConsoleFails d g e made') :
    ConsoleFails c g e (made ++ made') := by
  obtain ⟨reached, refused⟩ := h'
  rw [← List.append_assoc]
  exact .last (h.trans reached) refused

theorem Answered.reached {call : Call} (h : Answered c d call) : Reached c [call] d :=
  Reached.here.further h

theorem Refused.fails {call : Call} (h : Refused c g d call) : ConsoleFails c g d [call] :=
  .last .here h

end Reached

/-- `operation` is what the console does at a call. -/
structure Operates (operation : σ → Reply σ α) (call : Except Fault α → Call) : Prop where
  answered : ∀ c a d, Channel.exchange operation call c = .ok a d → Answered c d (call (.ok a))
  refused : ∀ c g d, Channel.exchange operation call c = .error g d →
    Refused c g d (call (.error g))

theorem operates_read : Operates (σ := σ) Console.read .read :=
  ⟨fun _ _ _ => .read, fun _ _ _ => .read⟩

theorem operates_write (code : Int) :
    Operates (σ := σ) (Console.write code) fun _ => .write code :=
  ⟨fun _ _ _ => .write, fun _ _ _ => .write⟩

theorem operates_flush : Operates (σ := σ) Console.flush fun _ => .flush :=
  ⟨fun _ _ _ => .flush, fun _ _ _ => .flush⟩

/-! ## Making calls in turn -/

/-- From `s`, `x` makes the calls `all`, each of which the console answers. If it stops early it
makes the first of them, and was stopped by the last one that it made, at which the console failed
with what `x` stops with. -/
def InTurn (x : MachineM σ α) (s : System σ) (all : List Call) : Prop :=
  ∃ made, Makes x s made ∧ made <+: all ∧
    (∀ a t, x s = .ok a t → made = all ∧ Reached s.channel all t.channel) ∧
    ∀ e t, x s = .error e t → ∃ g, e = .fault g ∧ ConsoleFails s.channel g t.channel made

variable {all all' : List Call}

theorem inTurn_nothing {a : α} (h : x s = .ok a t) (hchannel : t.channel = s.channel) :
    InTurn x s [] := by
  refine ⟨[], makes_nothing (by rw [h]; exact hchannel), List.nil_prefix, fun b u hb => ?_,
    fun e u he => ?_⟩
  · cases h.symm.trans hb
    exact ⟨rfl, hchannel ▸ .here⟩
  · cases h.symm.trans he

theorem Operates.inTurn {operation : σ → Reply σ α} {call : Except Fault α → Call}
    (h : Operates operation call) (s : System σ) :
    InTurn (atChannel (Channel.exchange operation call)) s
      [call (operation s.channel.device).answer] := by
  refine ⟨_, makes_exchange .., List.prefix_refl _, fun a t ha => ⟨rfl, ?_⟩, fun e t he => ?_⟩
  · have hexchange := (atChannel_eq_ok.1 ha).1
    rw [(exchange_eq_ok.1 hexchange).1]
    exact (h.answered _ _ _ hexchange).reached
  · obtain ⟨g, rfl⟩ := atChannel_stop he
    have hexchange := (atChannel_eq_error.1 he).1
    rw [(exchange_eq_error.1 hexchange).1]
    exact ⟨g, rfl, (h.refused _ _ _ hexchange).fails⟩

theorem InTurn.makes {a : α} (h : InTurn x s all) (hx : x s = .ok a t) : Makes x s all := by
  obtain ⟨made, hmakes, -, hall, -⟩ := h
  exact (hall a t hx).1 ▸ hmakes

theorem InTurn.reached {a : α} (h : InTurn x s all) (hx : x s = .ok a t) :
    Reached s.channel all t.channel := by
  obtain ⟨made, -, -, hall, -⟩ := h
  exact (hall a t hx).2

theorem InTurn.bind (hx : InTurn x s all)
    (hf : ∀ a t, x s = .ok a t → InTurn (f a) t all') : InTurn (x >>= f) s (all ++ all') := by
  rcases h : x s with ⟨a, t⟩ | ⟨e, t⟩
  · obtain ⟨made, hmakes, hpart, hwhole, hstop⟩ := hf a t h
    refine ⟨all ++ made, (hx.makes h).bind_ok h hmakes, (List.prefix_append_right_inj all).2 hpart,
      fun b u hb => ?_, fun e u he => ?_⟩
    · rw [bind_of_ok h] at hb
      obtain ⟨rfl, hrest⟩ := hwhole b u hb
      exact ⟨rfl, (hx.reached h).trans hrest⟩
    · rw [bind_of_ok h] at he
      obtain ⟨g, rfl, hfails⟩ := hstop e u he
      exact ⟨g, rfl, (hx.reached h).fails hfails⟩
  · obtain ⟨made, hmakes, hpart, -, hstop⟩ := hx
    refine ⟨made, hmakes.bind_error h, hpart.trans (List.prefix_append ..), fun b u hb => ?_,
      fun e' u he => ?_⟩
    · rw [bind_of_error h] at hb
      cases hb
    · rw [bind_of_error h] at he
      cases he
      exact hstop e t h

theorem InTurn.of_eq {y : MachineM σ α} {u : System σ} (h : InTurn y u all) (hxy : x s = y u)
    (hchannel : u.channel = s.channel) : InTurn x s all := by
  unfold InTurn Makes at *
  rw [hxy, ← hchannel]
  exact h

theorem InTurn.bind_silent (hx : InTurn x s all)
    (hf : ∀ a t, ∃ b u, f a t = .ok b u ∧ u.channel = t.channel) : InTurn (x >>= f) s all := by
  have h : InTurn (x >>= f) s (all ++ []) := hx.bind fun a t _ => by
    obtain ⟨b, u, hu, hchannel⟩ := hf a t
    exact inTurn_nothing hu hchannel
  rwa [List.append_nil] at h

/-- A part that stops before anything else is done need not be followed further. -/
theorem InTurn.bind_of_error {e : Stop} (hx : InTurn x s all) (h : x s = .error e t)
    (rest : List Call) : InTurn (x >>= f) s (all ++ rest) :=
  hx.bind fun _ _ ha => nomatch h.symm.trans ha

/-! ## Services -/

/-- The writes that hand over a text. -/
def Call.text (text : String) : List Call := (Text.units text).map fun unit : Nat => .write unit

theorem inTurn_writeAll (codes : List Nat) (s : System σ) :
    InTurn (atChannel (Channel.writeAll codes)) s (codes.map fun code : Nat => .write code) := by
  induction codes generalizing s with
  | nil => exact inTurn_nothing rfl rfl
  | cons code codes ih =>
    unfold Channel.writeAll
    rw [atChannel_bind]
    exact ((operates_write code).inTurn s).bind fun _ t _ => ih t

theorem inTurn_writeText (text : String) (s : System σ) :
    InTurn (writeText text) s (Call.text text) := inTurn_writeAll _ s

/-- A character is waited for behind a flush, and its low byte is kept. -/
theorem inTurn_readByte (s : System σ) :
    ∃ answer, InTurn readByte s [.flush, .read answer] ∧
      ∀ b t, readByte s = .ok b t → ∃ code, answer = .ok code ∧ b = .ofInt code := by
  have hflush : InTurn (atChannel Channel.flush : MachineM σ Unit) s [.flush] :=
    operates_flush.inTurn s
  rcases hflushed : (atChannel Channel.flush : MachineM σ Unit) s with ⟨_, u⟩ | ⟨e, u⟩
  · refine ⟨(Console.read u.channel.device).answer, hflush.bind fun _ v hv => ?_, ?_⟩
    · cases hflushed.symm.trans hv
      exact (operates_read.inTurn u).bind_silent fun _ _ => ⟨_, _, rfl, rfl⟩
    · intro b t h
      obtain ⟨_, v, hv, h⟩ := bind_eq_ok.1 h
      cases hflushed.symm.trans hv
      obtain ⟨code, w, hread, h⟩ := bind_eq_ok.1 h
      cases h
      exact ⟨code, (exchange_eq_ok.1 (atChannel_eq_ok.1 hread).1).1, rfl⟩
  · refine ⟨.error .inputClosed, hflush.bind_of_error hflushed _, fun b t h => ?_⟩
    have hstop : readByte s = .error e u := bind_of_error hflushed
    cases hstop.symm.trans h

/-- The calls that show the low byte of what was read. -/
def Call.echo : Except Fault Int → List Call
  | .ok code => [.write (code % 256)]
  | .error _ => []

theorem toNat_ofInt_byte (code : Int) : ((UInt8.ofInt code).toNat : Int) = code % 256 := by
  have hbyte : (UInt8.ofInt code).toNat = (code % 256).toNat % 256 := by
    unfold UInt8.ofInt
    rw [UInt8.toNat_ofNat']
    rfl
  omega

/-- What R0 holds when `b` is the result of a service. -/
theorem get_result (b : UInt8) (rs : Registers) :
    ((rs.set 0 (.ofNat 16 b.toNat)).get 0).toNat = b.toNat := by
  rw [Registers.get_set_self, BitVec.toNat_ofNat]
  have := b.toNat_lt
  omega

variable {fuel : Nat}

/-- `x` reads a code behind a flush, makes the calls before and behind it that go with it, and
leaves its low byte in R0. -/
def ReadsByte (x : MachineM σ α) (s : System σ) (before : List Call)
    (after : Except Fault Int → List Call) : Prop :=
  ∃ answer, InTurn x s (before ++ .flush :: .read answer :: after answer) ∧
    ∀ a t, x s = .ok a t → ∃ code, answer = .ok code ∧
      ((t.machine.registers.get 0).toNat : Int) = code % 256

theorem readsByte_getCharacter (s : System σ) :
    ReadsByte (serve fuel .getCharacter) s [] fun _ => [] := by
  obtain ⟨answer, hcalls, hbyte⟩ := inTurn_readByte s
  refine ⟨answer, hcalls.bind_silent fun _ _ => ⟨_, _, rfl, rfl⟩, fun q t h => ?_⟩
  obtain ⟨b, u, hread, h⟩ := bind_eq_ok.1 h
  cases h
  obtain ⟨code, hcode, rfl⟩ := hbyte b u hread
  refine ⟨code, hcode, ?_⟩
  rw [← toNat_ofInt_byte]
  exact congrArg Nat.cast (get_result ..)

theorem readsByte_askCharacter (s : System σ) :
    ReadsByte (serve fuel .askCharacter) s (Call.text "Enter a character: ") Call.echo := by
  have hprompt := inTurn_writeText Service.prompt s
  rcases hasked : writeText Service.prompt s with ⟨_, u⟩ | ⟨e, u⟩
  · obtain ⟨answer, hcalls, hbyte⟩ := inTurn_readByte u
    refine ⟨answer, hprompt.bind fun _ v hv => ?_, fun q t h => ?_⟩
    · cases hasked.symm.trans hv
      show InTurn _ u ([.flush, .read answer] ++ Call.echo answer)
      refine hcalls.bind fun b w hread => ?_
      obtain ⟨code, rfl, rfl⟩ := hbyte b w hread
      show InTurn _ w [.write (code % 256)]
      rw [← toNat_ofInt_byte]
      exact ((operates_write _).inTurn w).bind_silent fun _ _ => ⟨_, _, rfl, rfl⟩
    · obtain ⟨_, v, hv, h⟩ := bind_eq_ok.1 h
      cases hasked.symm.trans hv
      obtain ⟨b, w, hread, h⟩ := bind_eq_ok.1 h
      obtain ⟨_, w', -, h⟩ := bind_eq_ok.1 h
      cases h
      obtain ⟨code, hcode, rfl⟩ := hbyte b w hread
      refine ⟨code, hcode, ?_⟩
      rw [← toNat_ofInt_byte]
      exact congrArg Nat.cast (get_result ..)
  · refine ⟨.error .inputClosed, hprompt.bind_of_error hasked _, fun q t h => ?_⟩
    have hstop : serve fuel .askCharacter s = .error e u := bind_of_error hasked
    cases hstop.symm.trans h

theorem inTurn_halt (s : System σ) :
    InTurn (serve fuel .halt) s (Call.text "HALT\n" ++ [.flush]) := by
  refine (inTurn_writeText Service.farewell s).bind fun _ u _ => ?_
  exact (operates_flush.inTurn u).bind_silent fun _ _ => ⟨_, _, rfl, rfl⟩

/-! ## Traps -/

variable {vector : BitVec 8} {service : Service}

/-- A step makes the calls of its cycle. -/
theorem makes_step_iff (hrun : s.machine.state = .running) :
    Makes (step fuel) s made ↔ Makes (cycle fuel) s made := by
  unfold Makes
  rw [step_eq_halting hrun]
  rcases cycle fuel s with ⟨_, u⟩ | ⟨f | _ | _, u⟩ <;> rfl

theorem InTurn.step (hrun : s.machine.state = .running) (h : Fetches s (.trap vector))
    (hservice : Service.ofVector? vector.toNat = some service)
    (hcalls : InTurn (serve fuel service) (trapped s) all) : InTurn (MachineM.step fuel) s all := by
  have hserved : InTurn (do setState (← serve fuel service)) (trapped s) all :=
    hcalls.bind_silent fun _ _ => ⟨_, _, rfl, rfl⟩
  have hcycle : InTurn (cycle fuel) s all := hserved.of_eq (cycle_of_service h hservice) rfl
  obtain ⟨made, hmakes, hpart, hwhole, hstop⟩ := hcycle
  refine ⟨made, (makes_step_iff hrun).2 hmakes, hpart, fun _ t hstep => ?_, fun e t hstep => ?_⟩
  · exact hwhole () t (cycle_of_step_ok hrun hstep)
  · rw [step_eq_halting hrun] at hstep
    rcases hfailed : cycle fuel s with ⟨_, u⟩ | ⟨e', u⟩
    · rw [hfailed] at hstep
      cases hstep
    · obtain ⟨g, rfl, hfails⟩ := hstop e' u hfailed
      rw [hfailed] at hstep
      cases hstep
      exact ⟨g, rfl, hfails⟩

theorem ReadsByte.step {before : List Call} {after : Except Fault Int → List Call}
    (hrun : s.machine.state = .running) (h : Fetches s (.trap vector))
    (hservice : Service.ofVector? vector.toNat = some service)
    (hreads : ReadsByte (serve fuel service) (trapped s) before after) :
    ReadsByte (MachineM.step fuel) s before after := by
  obtain ⟨answer, hcalls, hbyte⟩ := hreads
  refine ⟨answer, hcalls.step hrun h hservice, fun _ t hstep => ?_⟩
  obtain ⟨q, u, hserve, rfl⟩ := step_service_eq_ok hrun h hservice hstep
  exact hbyte q u hserve

end LC3
