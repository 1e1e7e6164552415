import LC3.Proofs.FlushBlind

/-!
# How a run comes to its end

A run that is complete has executed the trap that halts the machine, as its last instruction. What
the machine says on that occasion is the end of the program's output, and nothing is held back
behind it.
-/

namespace LC3

open MachineM

variable {σ α : Type} {fuel : Nat} {s t : System σ} {c d : Channel σ}

section Output

theorem ofInt_natCast (n : Nat) : UInt8.ofInt n = UInt8.ofNat n := by
  have hlow : ((n : Int) % 2 ^ 8).toNat = n % UInt8.size := by
    show ((n : Int) % 256).toNat = n % 256
    omega
  unfold UInt8.ofInt
  rw [hlow]
  exact UInt8.ofNat_mod_size

variable [Console σ] [FlushBlind σ]

theorem produced_write {code : Int} (h : Channel.write code c = .ok () d) :
    produced d = produced c ++ [UInt8.ofInt code] := by
  obtain ⟨hanswer, rfl⟩ := exchange_eq_ok.1 h
  have houtput := FlushBlind.output_write code c
  rw [hanswer] at houtput
  exact houtput

theorem produced_writeAll {codes : List Nat} (h : Channel.writeAll codes c = .ok () d) :
    produced d = produced c ++ codes.map fun code : Nat => UInt8.ofInt code := by
  induction codes generalizing c with
  | nil =>
    cases h
    exact (List.append_nil _).symm
  | cons code codes ih =>
    obtain ⟨_, e, hwrite, hrest⟩ := bind_eq_ok.1 h
    rw [ih hrest, produced_write hwrite, List.append_assoc]
    rfl

theorem produced_writeText {text : String} (h : writeText text s = .ok () t) :
    produced t.channel = produced s.channel ++ Queue.codes text := by
  have hcodes : (Text.units text).map (fun code : Nat => UInt8.ofInt code) = Queue.codes text :=
    List.map_congr_left fun code _ => ofInt_natCast code
  obtain ⟨hwrite, -⟩ := atChannel_eq_ok.1 h
  rw [produced_writeAll hwrite, hcodes]

theorem flushed_of_ok (h : Channel.flush c = .ok () d) :
    produced d = produced c ∧ FlushBlind.held d.device = [] := by
  obtain ⟨-, rfl⟩ := exchange_eq_ok.1 h
  exact ⟨produced_flush c, FlushBlind.held_flush _⟩

end Output

/-! ## The last instruction -/

/-- Nothing but a trap stops the machine. -/
theorem running_primitives [Console σ] :
    Primitives (fun s : System σ => s.machine.state = .running)
      (fun _ _ => False : System σ → System σ → Prop) := by
  have hkept : ∀ {α : Type} {x : MachineM σ α}, Quiet x →
      (∀ s, (leftBy (x s)).machine.state = s.machine.state) →
        Agree (fun s => s.machine.state = .running) (fun _ _ => False) x x := fun hquiet hx =>
    ⟨hquiet, fun s hs => (hx s).trans hs, fun _ _ h => h.elim⟩
  have hchannel : ∀ {α : Type} (use : ChannelM σ α) (s : System σ),
      (leftBy (atChannel use s)).machine.state = s.machine.state := by
    rintro α use ⟨m, c⟩
    rcases hc : use c with ⟨a, d⟩ | ⟨f, d⟩
    · rw [atChannel_of_ok hc]
      rfl
    · rw [atChannel_of_error hc]
      rfl
  refine
    { isRunning := hkept (fun _ _ => nofun) fun _ => rfl
      pc := hkept (fun _ _ => nofun) fun _ => rfl
      condition := hkept (fun _ _ => nofun) fun _ => rfl
      register := fun _ => hkept (fun _ _ => nofun) fun _ => rfl
      setRegisters := fun _ => hkept (fun _ _ => nofun) fun _ => rfl
      readWord := fun a => ?_
      writeWord := fun _ _ => hkept (fun _ _ => nofun) fun _ => rfl
      read := hkept (atChannel_quiet _) (hchannel _)
      write := fun _ => hkept (atChannel_quiet _) (hchannel _)
      flush := hkept (atChannel_quiet _) (hchannel _) }
  rw [readWord_eq]
  refine Agree.ite (Agree.bind ?_ fun _ => hkept (fun _ _ => nofun) fun _ => rfl)
    (hkept (fun _ _ => nofun) fun _ => rfl)
  refine (hkept (atChannel_quiet _) (hchannel _)).bind fun key => ?_
  cases key with
  | some key => exact hkept (fun _ _ => nofun) fun _ => rfl
  | none => exact hkept (fun _ _ => nofun) fun _ => rfl

theorem perform_running [Console σ] {address : Word} {i : Instruction}
    (hi : ∀ vector, i ≠ .trap vector) (hs : s.machine.state = .running)
    (h : perform fuel address i s = .ok () t) : t.machine.state = .running := by
  have hagree : Agree (fun s : System σ => s.machine.state = .running)
      (fun _ _ => False : System σ → System σ → Prop) (perform fuel address i)
      (perform fuel address i) := running_primitives.perform_of_not_trap address hi
  have hlost := hagree.lost s hs
  rwa [h] at hlost

/-- The only answer that `x` ever gives is `a`. -/
def Returns (a : α) (x : MachineM σ α) : Prop := ∀ s b t, x s = .ok b t → b = a

theorem Returns.pure (a : α) : Returns a (pure a : MachineM σ α) := by
  rintro s b t ⟨⟩
  rfl

theorem Returns.bind {β : Type} {a : β} (x : MachineM σ α) {f : α → MachineM σ β}
    (hf : ∀ c, Returns a (f c)) : Returns a (x >>= f) := by
  intro s b t h
  obtain ⟨c, u, -, h⟩ := bind_eq_ok.1 h
  exact hf c u b t h

theorem serve_running [Console σ] {service : Service} (hs : service ≠ .halt) :
    Returns .running (serve fuel service : MachineM σ RunState) := by
  cases service with
  | halt => exact absurd rfl hs
  | getCharacter => exact Returns.bind _ fun _ => Returns.bind _ fun _ => Returns.pure _
  | putCharacter => exact Returns.bind _ fun _ => Returns.bind _ fun _ => Returns.pure _
  | putWords => exact Returns.bind _ fun _ => Returns.bind _ fun _ => Returns.pure _
  | askCharacter =>
    refine Returns.bind _ fun _ => Returns.bind _ fun _ => ?_
    exact Returns.bind _ fun _ => Returns.bind _ fun _ => Returns.pure _
  | putBytes => exact Returns.bind _ fun _ => Returns.bind _ fun _ => Returns.pure _

theorem serve_halted [Console σ] :
    Returns .halted (serve fuel .halt : MachineM σ RunState) :=
  Returns.bind _ fun _ => Returns.bind _ fun _ => Returns.pure _

/-- Only the console can keep a machine from saying that it halts. -/
theorem serve_halt_fault [Console σ] {e : Stop} (h : serve fuel .halt s = .error e t) :
    ∃ f, e = .fault f := by
  rcases bind_eq_error.1 h with hsaid | ⟨_, u, -, h⟩
  · exact atChannel_stop hsaid
  rcases bind_eq_error.1 h with hflush | ⟨_, v, -, h⟩
  · exact atChannel_stop hflush
  · cases h

/-- A step that is complete halts the machine if and only if it is a trap to the halting service. -/
theorem step_halted_iff [Console σ] (hrun : s.machine.state = .running)
    (hstep : step fuel s = .ok () t) : t.machine.state = .halted ↔ Fetches s (.trap 0x25) := by
  constructor
  · intro hhalt
    rcases hread : readWord s.machine.registers.pc s with ⟨w, u⟩ | ⟨e, u⟩
    · by_cases htrap : ∃ vector, Instruction.decode w = .trap vector
      · obtain ⟨vector, hvector⟩ := htrap
        have hfetch : Fetches s (.trap vector) := ⟨w, u, hread, hvector⟩
        have hcycle := cycle_of_step_ok hrun hstep
        rw [cycle_of_trap hfetch] at hcycle
        obtain ⟨q, v, hcall, hstate⟩ := bind_eq_ok.1 hcycle
        cases hstate
        obtain rfl : q = .halted := hhalt
        unfold callService at hcall
        rcases hservice : Service.ofVector? vector.toNat with _ | service <;> rw [hservice] at hcall
        · cases hcall
        by_cases hs : service = .halt
        · subst hs
          have hcode : (0x25 : Int) = vector.toNat := Service.vector_of_ofVector? hservice
          obtain rfl : vector = 0x25 := BitVec.eq_of_toNat_eq (Int.ofNat_inj.1 hcode).symm
          exact hfetch
        · cases serve_running hs _ _ _ hcall
      · have hcycle := cycle_of_step_ok hrun hstep
        rw [cycle_of_fetched hread] at hcycle
        have hu : (fetchedFrom s u).machine.state = .running := by
          have hlost := (running_primitives.readWord s.machine.registers.pc).lost s hrun
          rwa [hread] at hlost
        have ht := perform_running (fun vector hv => htrap ⟨vector, hv⟩) hu hcycle
        cases hhalt.symm.trans ht
    · have hcycle := cycle_of_step_ok hrun hstep
      rw [cycle_of_unfetched hread] at hcycle
      cases hcycle
  · intro hfetch
    have hservice : Service.ofVector? (0x25 : BitVec 8).toNat = some .halt := rfl
    obtain ⟨q, u, hserve, rfl⟩ := step_service_eq_ok hrun hfetch hservice hstep
    exact serve_halted _ _ _ hserve

/-- A trap to the halting service halts the machine, also when the console fails on it. -/
theorem step_halting [Console σ] (hrun : s.machine.state = .running)
    (hfetch : Fetches s (.trap 0x25)) : (leftBy (step fuel s)).machine.state = .halted := by
  have hservice : Service.ofVector? (0x25 : BitVec 8).toNat = some .halt := rfl
  rcases hcycle : cycle fuel s with ⟨_, t⟩ | ⟨e, t⟩
  · have hstep := step_of_ok hrun hcycle
    rw [hstep]
    exact (step_halted_iff hrun hstep).2 hfetch
  · rw [cycle_of_service hfetch hservice] at hcycle
    obtain ⟨f, rfl⟩ : ∃ f, e = .fault f := by
      rcases bind_eq_error.1 hcycle with hserve | ⟨_, _, -, hstate⟩
      · exact serve_halt_fault hserve
      · cases hstate
    rw [← cycle_of_service hfetch hservice] at hcycle
    rw [step_of_fault hrun hcycle]
    rfl

/-- Where steps have halted a machine, one of them did. -/
theorem steps_last [Console σ] {n : Nat} (hrun : s.machine.isRunning = true)
    (h : steps fuel n s = .ok () t) (hhalt : t.machine.isRunning = false) :
    ∃ k u, k < n ∧ steps fuel k s = .ok () u ∧ u.machine.isRunning = true ∧
      step fuel u = .ok () t := by
  induction n generalizing s with
  | zero =>
    cases h
    cases hrun.symm.trans hhalt
  | succ n ih =>
    have hsteps : (do step fuel; steps fuel n : MachineM σ Unit) s = .ok () t :=
      (guard_of_running _ hrun).symm.trans h
    obtain ⟨_, v, hstep, hrest⟩ := bind_eq_ok.1 hsteps
    cases hv : v.machine.isRunning with
    | true =>
      obtain ⟨k, u, hk, hbefore, hu, hlast⟩ := ih hv hrest
      refine ⟨k + 1, u, Nat.succ_lt_succ hk, ?_, hu, hlast⟩
      exact (guard_of_running _ hrun).trans ((bind_of_ok hstep).trans hbefore)
    | false =>
      rw [steps_guarded fuel n v hv] at hrest
      cases hrest
      exact ⟨0, s, Nat.succ_pos n, rfl, hrun, hstep⟩

/-- What it takes to halt between `s` and `t`: a trap to the halting service at the program counter.
Its message comes last in the output, and all of it is pushed out. -/
structure Halts [Console σ] [FlushBlind σ] (s t : System σ) : Prop where
  running : s.machine.isRunning = true
  fetched : ∃ w u, readWord s.machine.registers.pc s = .ok w u ∧
    Instruction.decode w = .trap 0x25
  said : ∃ before, produced t.channel = before ++ Queue.codes "HALT\n"
  pushed : FlushBlind.held t.channel.device = []

section Halts

variable [Console σ] [FlushBlind σ]

theorem serve_halt {q : RunState} (h : serve fuel .halt s = .ok q t) :
    produced t.channel = produced s.channel ++ Queue.codes "HALT\n" ∧
      FlushBlind.held t.channel.device = [] := by
  obtain ⟨_, u, hsaid, h⟩ := bind_eq_ok.1 h
  obtain ⟨_, v, hflush, h⟩ := bind_eq_ok.1 h
  cases h
  obtain ⟨hproduced, hheld⟩ := flushed_of_ok (atChannel_eq_ok.1 hflush).1
  exact ⟨hproduced.trans (produced_writeText hsaid), hheld⟩

theorem step_halts (hrun : s.machine.state = .running) (hstep : step fuel s = .ok () t)
    (hhalt : t.machine.state = .halted) : Halts s t := by
  have hfetch := (step_halted_iff hrun hstep).1 hhalt
  have hservice : Service.ofVector? (0x25 : BitVec 8).toNat = some .halt := rfl
  obtain ⟨q, u, hserve, rfl⟩ := step_service_eq_ok hrun hfetch hservice hstep
  obtain ⟨hsaid, hheld⟩ := serve_halt hserve
  exact ⟨Machine.isRunning_iff.2 hrun, hfetch, ⟨_, hsaid⟩, hheld⟩

/-- A run that is complete took some steps and then halted the machine. -/
theorem run_halts {n : Nat} (hrun : s.machine.isRunning = true) (h : runFor fuel n s = .ok () t) :
    ∃ k u, steps fuel k s = .ok () u ∧ step fuel u = .ok () t ∧ Halts u t := by
  have hlast : ¬OutOfFuel (runFor fuel n s) := by
    rw [h]
    exact nofun
  have hsteps : steps fuel n s = .ok () t := (runFor_eq_steps hlast).symm.trans h
  have hhalt : t.machine.isRunning = false := by
    refine Bool.eq_false_iff.2 fun hrunning => hlast ?_
    exact runFor_outOfFuel_iff.2 (.inr ⟨t, hsteps, hrunning⟩)
  obtain ⟨k, u, -, hbefore, hu, hstep⟩ := steps_last hrun hsteps hhalt
  refine ⟨k, u, hbefore, hstep, ?_⟩
  exact step_halts (Machine.isRunning_iff.1 hu) hstep (Machine.isRunning_eq_false_iff.1 hhalt)

end Halts

end LC3
