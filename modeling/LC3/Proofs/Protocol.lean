import LC3.Console.Scripted
import LC3.Proofs.Calls
import LC3.Proofs.Halting
import LC3.Proofs.IsaStep

/-!
# The console protocol

Whatever its console answers, and wherever it fails, a machine keeps to a protocol. It reads only
behind a flush, it writes only bytes, and it polls once for each time that it reads the keyboard's
status register and for no other reason. The protocol is a grammar over the words that are read and
the calls that are made. Each primitive is a phrase of it and phrases can be strung together, so a
run of any length is in it.
-/

namespace LC3

open MachineM

variable {σ α β : Type}

/-- Whether a call is a poll. -/
def Call.isPoll : Call → Bool
  | .poll _ => true
  | _ => false

/-! ## The grammar -/

/-- The words that are read and the calls that are made in one go. -/
inductive Phrase : List Word → List Call → Prop where
  /-- A word of plain storage is read. -/
  | read {a : Word} (ha : a ≠ Machine.keyboardStatus) : Phrase [a] []
  /-- The status register is read, behind a poll. -/
  | poll (answer : Except Fault (Option Int)) : Phrase [Machine.keyboardStatus] [.poll answer]
  | write (b : UInt8) : Phrase [] [.write b.toNat]
  | flush : Phrase [] [.flush]
  /-- A character is waited for. -/
  | wait (answer : Except Fault Int) : Phrase [] [.flush, .read answer]

/-- The words that are read and the calls that are made one after the other. -/
inductive Protocol : List Word → List Call → Prop where
  | nil : Protocol [] []
  | phrase {reads reads' : List Word} {made made' : List Call} (h : Protocol reads made)
      (h' : Phrase reads' made') : Protocol (reads ++ reads') (made ++ made')

variable {reads reads' : List Word} {made made' : List Call}

theorem Phrase.protocol (h : Phrase reads made) : Protocol reads made := Protocol.nil.phrase h

theorem Protocol.append (h : Protocol reads made) (h' : Protocol reads' made') :
    Protocol (reads ++ reads') (made ++ made') := by
  induction h' with
  | nil => rwa [List.append_nil, List.append_nil]
  | phrase _ hphrase ih =>
    rw [← List.append_assoc, ← List.append_assoc]
    exact ih.phrase hphrase

/-! ## What it comes to -/

/-- Each read is directly behind a flush. -/
def ReadsBehindFlush (made : List Call) : Prop :=
  ∀ before answer after, made = before ++ .read answer :: after →
    ∃ earlier, before = earlier ++ [.flush]

theorem ReadsBehindFlush.append (h : ReadsBehindFlush made) (h' : ReadsBehindFlush made') :
    ReadsBehindFlush (made ++ made') := by
  intro before answer after hsplit
  rcases List.append_eq_append_iff.1 hsplit with ⟨between, rfl, hrest⟩ | ⟨between, hrest, hread⟩
  · obtain ⟨earlier, rfl⟩ := h' between answer after hrest
    exact ⟨made ++ earlier, (List.append_assoc ..).symm⟩
  · cases between with
    | nil =>
      rw [List.append_nil] at hrest
      obtain ⟨earlier, hnil⟩ := h' [] answer after hread.symm
      exact absurd hnil.symm (List.append_ne_nil_of_right_ne_nil earlier nofun)
    | cons call between =>
      cases hread
      exact h before answer between hrest

theorem readsBehindFlush_of_no_read (h : ∀ answer, .read answer ∉ made) :
    ReadsBehindFlush made := by
  intro before answer after hsplit
  refine absurd ?_ (h answer)
  rw [hsplit]
  exact List.mem_append_right _ List.mem_cons_self

theorem Phrase.readsBehindFlush (h : Phrase reads made) : ReadsBehindFlush made := by
  cases h with
  | wait answer =>
    intro before answer' after hsplit
    match before with
    | [] => cases hsplit
    | [call] =>
      cases hsplit
      exact ⟨[], rfl⟩
    | _ :: _ :: rest =>
      have hlength := congrArg List.length hsplit
      simp only [List.length_cons, List.length_append, List.length_nil] at hlength
      omega
  | _ => exact readsBehindFlush_of_no_read (by simp)

/-- What the protocol comes to. -/
structure Orderly (reads : List Word) (made : List Call) : Prop where
  behindFlush : ReadsBehindFlush made
  bytes : ∀ code, .write code ∈ made → 0 ≤ code ∧ code ≤ 255
  /-- There is a poll for each read of the status register, and no other. -/
  polls : made.countP Call.isPoll = reads.count 0xfe00

theorem Orderly.append (h : Orderly reads made) (h' : Orderly reads' made') :
    Orderly (reads ++ reads') (made ++ made') := by
  refine ⟨h.behindFlush.append h'.behindFlush, fun code hcode => ?_, ?_⟩
  · rcases List.mem_append.1 hcode with hcode | hcode
    · exact h.bytes code hcode
    · exact h'.bytes code hcode
  · rw [List.countP_append, List.count_append, h.polls, h'.polls]

theorem Phrase.orderly (h : Phrase reads made) : Orderly reads made := by
  refine ⟨h.readsBehindFlush, ?_, ?_⟩
  · cases h with
    | write b =>
      have := b.toNat_lt
      simp
      omega
    | _ => simp
  · cases h with
    | @read a ha =>
      have hnot : Machine.keyboardStatus ∉ [a] := fun h => ha (List.mem_singleton.1 h).symm
      exact (List.count_eq_zero.2 hnot).symm
    | _ => rfl

theorem Protocol.orderly (h : Protocol reads made) : Orderly reads made := by
  induction h with
  | nil => exact ⟨readsBehindFlush_of_no_read nofun, nofun, rfl⟩
  | phrase _ hphrase ih => exact ih.append hphrase.orderly

/-! ## Keeping to it -/

/-- Reading the words at `reads`, `x` keeps to the protocol from `s` on. -/
def Keeps (reads : List Word) (x : MachineM σ α) (s : System σ) : Prop :=
  ∃ made, Makes x s made ∧ Protocol reads made

variable {x : MachineM σ α} {f : α → MachineM σ β} {s : System σ}

theorem keeps_silent (h : (leftBy (x s)).channel = s.channel) : Keeps [] x s :=
  ⟨[], makes_nothing h, .nil⟩

theorem Keeps.bind {next : α → System σ → List Word} (hx : Keeps reads x s)
    (hf : ∀ a t, x s = .ok a t → Keeps (next a t) (f a) t) :
    Keeps (reads ++ behind (x s) next) (x >>= f) s := by
  obtain ⟨made, hmakes, hmade⟩ := hx
  rcases h : x s with ⟨a, t⟩ | ⟨e, t⟩
  · obtain ⟨made', hmakes', hmade'⟩ := hf a t h
    exact ⟨made ++ made', hmakes.bind_ok h hmakes', hmade.append hmade'⟩
  · rw [behind_of_error rfl, List.append_nil]
    exact ⟨made, hmakes.bind_error h, hmade⟩

/-- What is read first is all that is read. -/
theorem Keeps.bind_silent (hx : Keeps reads x s)
    (hf : ∀ a t, x s = .ok a t → Keeps [] (f a) t) : Keeps reads (x >>= f) s := by
  have h := hx.bind hf
  rwa [behind_nil, List.append_nil] at h

/-- Nothing is read at first. -/
theorem Keeps.silent_bind {next : α → System σ → List Word} (hx : Keeps [] x s)
    (hf : ∀ a t, x s = .ok a t → Keeps (next a t) (f a) t) :
    Keeps (behind (x s) next) (x >>= f) s := hx.bind hf

theorem Keeps.of_eq {y : MachineM σ α} {u : System σ} (h : Keeps reads y u) (hxy : x s = y u)
    (hchannel : u.channel = s.channel) : Keeps reads x s := by
  unfold Keeps Makes at *
  rw [hxy, ← hchannel]
  exact h

variable [Console σ]

theorem readWord_keeps (a : Word) (s : System σ) : Keeps [a] (readWord a) s := by
  by_cases ha : a = Machine.keyboardStatus
  · have hpoll : Keeps [Machine.keyboardStatus] (pollKeyboard : MachineM σ Unit) s := by
      refine Keeps.bind_silent ⟨_, makes_exchange .., (Phrase.poll _).protocol⟩ fun key t _ => ?_
      cases key with
      | some key => exact keeps_silent rfl
      | none => exact keeps_silent rfl
    rw [readWord_eq, if_pos ha, ha]
    exact hpoll.bind_silent fun _ _ _ => keeps_silent rfl
  · refine ⟨[], makes_nothing ?_, (Phrase.read ha).protocol⟩
    rw [readWord_of_ne ha]
    rfl

theorem writeByte_keeps (b : UInt8) (s : System σ) : Keeps [] (writeByte b) s :=
  ⟨_, makes_exchange .., (Phrase.write b).protocol⟩

theorem flush_keeps (s : System σ) : Keeps [] (atChannel Channel.flush) s :=
  ⟨_, makes_exchange .., Phrase.flush.protocol⟩

theorem writeAll_keeps {codes : List Nat} (h : ∀ code ∈ codes, code < 256) (s : System σ) :
    Keeps [] (atChannel (Channel.writeAll codes)) s := by
  induction codes generalizing s with
  | nil => exact keeps_silent rfl
  | cons code codes ih =>
    have hcode : code < 256 := h code List.mem_cons_self
    have hbyte : (UInt8.ofNat code).toNat = code := UInt8.toNat_ofNat_of_lt' hcode
    unfold Channel.writeAll
    rw [atChannel_bind]
    refine Keeps.bind_silent ?_ fun _ t _ => ih (fun c hc => h c (List.mem_cons_of_mem _ hc)) t
    rw [← hbyte]
    exact writeByte_keeps _ s

/-- A character is waited for behind a flush, also when the flush fails. -/
theorem readByte_keeps (s : System σ) : Keeps [] (readByte : MachineM σ UInt8) s := by
  obtain ⟨answer, ⟨made, hmakes, hpart, -⟩, -⟩ := inTurn_readByte s
  refine ⟨made, hmakes, ?_⟩
  rcases List.prefix_cons_iff.1 hpart with rfl | ⟨rest, rfl, hrest⟩
  · exact .nil
  rcases List.prefix_cons_iff.1 hrest with rfl | ⟨rest', rfl, hrest'⟩
  · exact Phrase.flush.protocol
  · rw [List.prefix_nil.1 hrest']
    exact (Phrase.wait answer).protocol

/-! ## Services -/

theorem search_keeps {put : Word → MachineM σ Bool} (hput : ∀ w s, Keeps [] (put w) s)
    (fuel : Nat) (a : Word) (s : System σ) :
    Keeps (searched put fuel a s) (search put fuel a) s := by
  induction fuel generalizing a s with
  | zero => exact keeps_silent rfl
  | succ fuel ih =>
    refine (readWord_keeps a s).bind fun w t _ => ?_
    by_cases hw : w = 0
    · rw [if_pos hw, if_pos hw]
      exact keeps_silent rfl
    · rw [if_neg hw, if_neg hw]
      refine (hput w t).silent_bind fun more u _ => ?_
      cases more with
      | true => exact ih (a + 1) u
      | false => exact keeps_silent rfl

theorem putLow_keeps (w : Word) (s : System σ) : Keeps [] (putLow w) s :=
  (writeByte_keeps _ s).bind_silent fun _ _ _ => keeps_silent rfl

theorem putBoth_keeps (w : Word) (s : System σ) : Keeps [] (putBoth w) s := by
  refine (writeByte_keeps _ s).bind_silent fun _ t _ => ?_
  by_cases hhigh : w.high = 0
  · rw [if_pos hhigh]
    exact keeps_silent rfl
  · rw [if_neg hhigh]
    exact (writeByte_keeps _ t).bind_silent fun _ _ _ => keeps_silent rfl

theorem serve_keeps (fuel : Nat) (service : Service) (s : System σ) :
    Keeps (service.reads fuel s) (serve fuel service) s := by
  cases service with
  | getCharacter => exact (readByte_keeps s).bind_silent fun _ _ _ => keeps_silent rfl
  | putCharacter => exact (writeByte_keeps _ s).bind_silent fun _ _ _ => keeps_silent rfl
  | putWords =>
    have hwords := search_keeps putLow_keeps fuel (s.machine.registers.get 0) s
    rw [← putWords_eq_search] at hwords
    exact hwords.bind_silent fun _ _ _ => keeps_silent rfl
  | askCharacter =>
    refine Keeps.bind_silent (writeAll_keeps (by decide) s) fun _ t _ => ?_
    refine (readByte_keeps t).bind_silent fun b u _ => ?_
    exact (writeByte_keeps b u).bind_silent fun _ _ _ => keeps_silent rfl
  | putBytes =>
    have hbytes := search_keeps putBoth_keeps fuel (s.machine.registers.get 0) s
    rw [← putBytes_eq_search] at hbytes
    exact hbytes.bind_silent fun _ _ _ => keeps_silent rfl
  | halt =>
    refine Keeps.bind_silent (writeAll_keeps (by decide) s) fun _ t _ => ?_
    exact (flush_keeps t).bind_silent fun _ _ _ => keeps_silent rfl

/-! ## Instructions -/

theorem perform_keeps (fuel : Nat) (address : Word) (i : Instruction) (s : System σ) :
    Keeps (i.reads fuel s) (perform fuel address i) s := by
  cases i with
  | add target left right => cases right <;> exact keeps_silent rfl
  | and target left right => cases right <;> exact keeps_silent rfl
  | not target source => exact keeps_silent rfl
  | branch mask offset =>
    by_cases hmatched : s.machine.registers.condition.matchedBy mask = true
    · refine keeps_silent ?_
      rw [branch_of_matched hmatched]
      rfl
    · refine keeps_silent ?_
      rw [branch_of_not_matched hmatched]
      rfl
  | jump base => exact keeps_silent rfl
  | call offset => exact keeps_silent rfl
  | callRegister base => exact keeps_silent rfl
  | load target offset =>
    exact (readWord_keeps _ s).bind_silent fun _ _ _ => keeps_silent rfl
  | loadIndirect target offset =>
    refine (readWord_keeps _ s).bind fun a t _ => ?_
    exact (readWord_keeps a t).bind_silent fun _ _ _ => keeps_silent rfl
  | loadBase target base offset =>
    exact (readWord_keeps _ s).bind_silent fun _ _ _ => keeps_silent rfl
  | loadAddress target offset => exact keeps_silent rfl
  | store source offset => exact keeps_silent rfl
  | storeIndirect source offset =>
    exact (readWord_keeps _ s).bind_silent fun _ _ _ => keeps_silent rfl
  | storeBase source base offset => exact keeps_silent rfl
  | trap vector =>
    have hservice : Keeps (Instruction.reads fuel s (.trap vector))
        (callService fuel vector.toNat address.toNat) (linked s) := by
      simp only [Instruction.reads, callService]
      cases Service.ofVector? vector.toNat with
      | some service => exact serve_keeps fuel service (linked s)
      | none => exact keeps_silent rfl
    have hstate : Keeps (Instruction.reads fuel s (.trap vector))
        (do setState (← callService fuel vector.toNat address.toNat)) (linked s) :=
      hservice.bind_silent fun _ _ _ => keeps_silent rfl
    exact hstate.of_eq rfl rfl
  | illegal opcode => exact keeps_silent rfl

theorem cycle_keeps (fuel : Nat) (s : System σ) :
    Keeps (s.machine.registers.pc :: behind (readWord s.machine.registers.pc s) fun w u =>
      (Instruction.decode w).reads fuel (fetchedFrom s u)) (cycle fuel) s := by
  refine (readWord_keeps s.machine.registers.pc s).bind fun w u _ => ?_
  exact (perform_keeps fuel _ _ (fetchedFrom s u)).of_eq rfl rfl

theorem step_keeps (fuel : Nat) (s : System σ) : Keeps (stepReads fuel s) (step fuel) s := by
  unfold stepReads
  cases hrun : s.machine.isRunning with
  | true =>
    obtain ⟨made, hmakes, hmade⟩ := cycle_keeps fuel s
    exact ⟨made, (makes_step_iff (of_decide_eq_true hrun)).2 hmakes, hmade⟩
  | false =>
    refine keeps_silent ?_
    exact congrArg (fun r => (leftBy r).channel) (guard_of_halted _ hrun)

/-! ## Runs -/

omit [Console σ] in
/-- A loop keeps to the protocol if its body does. -/
theorem Loops.keeps {body : MachineM σ Unit} {f : Nat → MachineM σ Unit} (h : Loops body f)
    {reads : System σ → List Word} (hbody : ∀ s, Keeps (reads s) body s) (n : Nat) (s : System σ) :
    Keeps (repeatedReads body reads n s) (f n) s := by
  induction n generalizing s with
  | zero =>
    rw [h.zero]
    cases hrun : s.machine.isRunning with
    | true => exact keeps_silent (congrArg (fun r => (leftBy r).channel) (guard_of_running _ hrun))
    | false => exact keeps_silent (congrArg (fun r => (leftBy r).channel) (guard_of_halted _ hrun))
  | succ n ih =>
    rw [h.succ]
    unfold repeatedReads
    cases hrun : s.machine.isRunning with
    | true =>
      refine Keeps.of_eq ?_ (guard_of_running _ hrun) rfl
      exact (hbody s).bind fun _ t _ => ih t
    | false => exact keeps_silent (congrArg (fun r => (leftBy r).channel) (guard_of_halted _ hrun))

theorem runFor_keeps (fuel n : Nat) (s : System σ) :
    Keeps (stepsReads fuel n s) (runFor fuel n) s :=
  (runFor_loops fuel).keeps (step_keeps fuel) n s

theorem steps_keeps (fuel n : Nat) (s : System σ) :
    Keeps (stepsReads fuel n s) (steps fuel n) s := by
  obtain ⟨made, hmakes, hmade⟩ := runFor_keeps fuel n s
  refine ⟨made, ?_, hmade⟩
  unfold Makes at *
  rwa [← leftBy_runFor]

theorem slice_keeps (fuel size : Nat) (signalWaiting : Bool) (s : System σ) :
    Keeps (stepsReads fuel size s) (slice fuel size signalWaiting) s := by
  refine (steps_keeps fuel size s).bind_silent fun _ t _ => ?_
  refine (flush_keeps t).bind_silent fun _ u _ => ?_
  refine ⟨[], ?_, .nil⟩
  cases signalWaiting <;> exact (calls_pause _).trans (List.append_nil _).symm

theorem slicesFor_keeps (fuel size : Nat) (signalWaiting : Bool) (n : Nat) (s : System σ) :
    Keeps (slicesReads fuel size signalWaiting n s) (slicesFor fuel size signalWaiting n) s :=
  (slicesFor_loops fuel size signalWaiting).keeps (slice_keeps fuel size signalWaiting) n s

/-! ## The end -/

/-- A halted machine makes no more calls. -/
theorem makes_of_halted (fuel n : Nat) (h : s.machine.state = .halted) :
    Makes (steps fuel n) s [] := by
  refine makes_nothing ?_
  rw [steps_guarded fuel n s (Machine.isRunning_eq_false_iff.2 h)]
  rfl

/-- Steps after which the machine is halted make the calls of the halting service last. -/
theorem makes_last {fuel n : Nat} {t : System σ} (hrun : s.machine.state = .running)
    (h : steps fuel n s = .ok () t) (hhalt : t.machine.state = .halted) :
    ∃ before, Makes (steps fuel n) s (before ++ (Call.text "HALT\n" ++ [.flush])) := by
  obtain ⟨k, u, -, hbefore, hu, hlast⟩ := steps_last (Machine.isRunning_iff.2 hrun) h
    (Machine.isRunning_eq_false_iff.2 hhalt)
  have hrunning : u.machine.state = .running := Machine.isRunning_iff.1 hu
  have hfetch : Fetches u (.trap 0x25) := (step_halted_iff hrunning hlast).1 hhalt
  have hcalls : InTurn (step fuel) u (Call.text "HALT\n" ++ [.flush]) :=
    (inTurn_halt (trapped u)).step hrunning hfetch rfl
  obtain ⟨before, hmakes, -⟩ := steps_keeps fuel k s
  have hall := hmakes.bind_ok (f := fun _ => step fuel) hbefore (hcalls.makes hlast)
  refine ⟨before, ?_⟩
  unfold Makes at *
  rw [bind_of_ok hbefore, hlast] at hall
  rw [h]
  exact hall

/-- Reading the words at `reads`, `x` makes its calls from `s` in an orderly way. -/
def Behaves (reads : List Word) (x : MachineM σ Unit) (s : System σ) : Prop :=
  ∃ made, Makes x s made ∧ Orderly reads made

omit [Console σ] in
theorem Keeps.behaves {x : MachineM σ Unit} (h : Keeps reads x s) : Behaves reads x s := by
  obtain ⟨made, hmakes, hmade⟩ := h
  exact ⟨made, hmakes, hmade.orderly⟩

/-- Whatever the console answers and wherever it fails, any number of steps and any run, in slices
or not, read from the console behind a flush, write bytes, and poll once for each read of the status
register. A character is read with one flush and one read, and only its low byte is kept; one that
is asked for has the prompt before it and is shown behind it. A machine that halts says so, flushes,
and makes no more calls; and none is halted by steps that are complete without these calls at their
end. -/
theorem calls_follow_protocol (fuel : Nat) (s : System σ) :
    (∀ n, Behaves (stepsReads fuel n s) (steps fuel n) s) ∧
      Behaves (stepsReads fuel fuel s) (run fuel) s ∧
      (∀ size signalWaiting, Behaves (slicesReads fuel size signalWaiting fuel s)
        (runInterruptibly fuel size signalWaiting) s) ∧
      (s.machine.state = .running →
        (Fetches s (.trap 0x20) → ReadsByte (step fuel) s [] fun _ => []) ∧
        (Fetches s (.trap 0x23) →
          ReadsByte (step fuel) s (Call.text "Enter a character: ") Call.echo) ∧
        (Fetches s (.trap 0x25) → InTurn (step fuel) s (Call.text "HALT\n" ++ [.flush]) ∧
          ∀ n, Makes (steps fuel n) (leftBy (step fuel s)) []) ∧
        ∀ n t, steps fuel n s = .ok () t → t.machine.state = .halted →
          ∃ before, Makes (steps fuel n) s (before ++ (Call.text "HALT\n" ++ [.flush]))) := by
  refine ⟨fun n => (steps_keeps fuel n s).behaves, (runFor_keeps fuel fuel s).behaves,
    fun size signalWaiting => (slicesFor_keeps fuel size signalWaiting fuel s).behaves,
    fun hrun => ⟨fun hget => ?_, fun hask => ?_, fun hhalt => ⟨?_, fun n => ?_⟩,
      fun n t => makes_last hrun⟩⟩
  · exact (readsByte_getCharacter (trapped s)).step hrun hget rfl
  · exact (readsByte_askCharacter (trapped s)).step hrun hask rfl
  · exact (inTurn_halt (trapped s)).step hrun hhalt rfl
  · exact makes_of_halted fuel n (step_halting hrun hhalt)

/-- A machine that is about to perform a trap and then halts, on a console that answers with a code
that is no byte. -/
def calling (vector : Word) : System Scripted :=
  ⟨(Machine.fresh 0).place 0 [0xf000 + vector, 0xf025], { device := { reads := [.ok 0x141] } }⟩

theorem calls_follow_protocol_calling :
    ReadsByte (step 0) (calling 0x20) [] (fun _ => []) ∧
      ReadsByte (step 0) (calling 0x23) (Call.text "Enter a character: ") Call.echo ∧
      InTurn (step 0) (calling 0x25) (Call.text "HALT\n" ++ [.flush]) ∧
      ∃ before, Makes (steps 0 2) (calling 0x23) (before ++ (Call.text "HALT\n" ++ [.flush])) := by
  have hfetch (vector : Word) (htrap : Instruction.decode (0xf000 + vector) =
      .trap (vector.setWidth 8)) : Fetches (calling vector) (.trap (vector.setWidth 8)) := by
    have hword : (calling vector).machine.memory.read 0 = 0xf000 + vector :=
      (Memory.read_write_of_ne _ _ (by decide)).trans (Memory.read_write_self ..)
    have hpc : (0 : Word) ≠ Machine.keyboardStatus := by decide
    refine ⟨_, _, readWord_of_ne hpc _, ?_⟩
    rw [← htrap, ← hword]
  have hsteps : steps 0 2 (calling 0x23) = .ok () (leftBy (steps 0 2 (calling 0x23))) :=
    eq_ok_of_stopOf (by decide +kernel)
  have hhalt : (leftBy (steps 0 2 (calling 0x23))).machine.state = .halted := by decide +kernel
  obtain ⟨-, -, -, hget⟩ := calls_follow_protocol 0 (calling 0x20)
  obtain ⟨-, -, -, hask⟩ := calls_follow_protocol 0 (calling 0x23)
  obtain ⟨-, -, -, hfarewell⟩ := calls_follow_protocol 0 (calling 0x25)
  exact ⟨(hget rfl).1 (hfetch 0x20 rfl), (hask rfl).2.1 (hfetch 0x23 rfl),
    ((hfarewell rfl).2.2.1 (hfetch 0x25 rfl)).1, (hask rfl).2.2.2 2 _ hsteps hhalt⟩

end LC3
