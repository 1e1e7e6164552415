import LC3.Proofs.TrapFrame

/-!
# The condition and the last result

Seven instructions keep a result and judge it: ADD, AND, NOT, LD, LDI, LDR and LEA. Beside a machine
that is used in any way, the result of the last one that was complete is remembered, as the
reference in `LC3.Proofs.Isa` computes it. The condition is the sign class of that result, in both
places where it is kept and whatever else has happened to the register that holds the result, and a
branch goes by it.
-/

namespace LC3

open MachineM

variable {σ : Type} [Console σ]

/-! ## The history -/

/-- The sign class of the last result. Before the first one it is that of zero. -/
def signOfLast : Option Word → BitVec 3
  | none => 0b010
  | some result => Isa.signClass result

/-- The result that the instruction at the program counter has, if it is one that keeps a result and
the keyboard answers. -/
def keptResult (s : System σ) : Option Word :=
  match (Isa.fetch (Isa.view s.machine) >>= fun p => Isa.result? p.1 p.2) s.channel with
  | .ok result _ => result
  | .error _ _ => none

/-- The last result after up to `n` steps from `s`, when it was `last` before them. -/
def lastResult (fuel : Nat) : Nat → System σ → Option Word → Option Word
  | 0, _, last => last
  | n + 1, s, last =>
    if s.machine.isRunning then
      match step fuel s with
      | .ok () t => lastResult fuel n t ((keptResult s).or last)
      | .error _ _ => last
    else last

/-- What a machine can come to on any console by being used, with the last result so far. Use may
fail, and goes on from where the failure left it. -/
inductive Used : System σ → Option Word → Prop where
  | fresh (pc : Word) (channel : Channel σ) : Used ⟨.fresh pc, channel⟩ none
  | load {s : System σ} {last : Option Word} (h : Used s last) (origin : Int) (words : List Word) :
    Used ⟨s.machine.place origin words, s.channel⟩ last
  | step {s : System σ} {last : Option Word} (h : Used s last) {fuel : Nat}
      (hlast : ¬OutOfFuel (step fuel s)) : Used (leftBy (step fuel s)) (lastResult fuel 1 s last)
  | run {s : System σ} {last : Option Word} (h : Used s last) {fuel : Nat}
      (hlast : ¬OutOfFuel (run fuel s)) : Used (leftBy (run fuel s)) (lastResult fuel fuel s last)
  | read {s : System σ} {last : Option Word} (h : Used s last) (a : Word) :
    Used (leftBy (readWord a s)) last
  | write {s : System σ} {last : Option Word} (h : Used s last) (a w : Word) :
    Used (leftBy (writeWord a w s)) last

/-! ## Results of the reference -/

namespace Isa

variable {w v : Word} {t t' : State} {c c' d : Channel σ}

theorem nzp_of_read {a : Word} (h : read t a c = .ok (w, t') c') : t'.nzp = t.nzp := by
  unfold read at h
  by_cases ha : a = 0xfe00
  · rw [if_pos ha] at h
    obtain ⟨key, d, -, hrest⟩ := bind_eq_ok.1 h
    cases key <;> cases hrest <;> rfl
  · rw [if_neg ha] at h
    cases h
    rfl

/-- The condition behind an instruction is the sign class of its result, if it has one, and the one
before otherwise. -/
theorem nzp_of_execute (h : execute w t c = .ok t' c') :
    ∃ result d, result? w t c = .ok result d ∧ t'.nzp = (result.map signClass).getD t.nzp := by
  obtain ⟨o, ho⟩ : ∃ o, Opcode.ofCode (Field.code w) = o := ⟨_, rfl⟩
  unfold execute at h
  unfold result?
  simp only [opcode_eq ho] at h ⊢
  cases o with
  | ld =>
    obtain ⟨⟨datum, u⟩, d, hread, hrest⟩ := bind_eq_ok.1 h
    cases hrest
    exact ⟨some datum, _, bind_of_ok hread, rfl⟩
  | ldr =>
    obtain ⟨⟨datum, u⟩, d, hread, hrest⟩ := bind_eq_ok.1 h
    cases hrest
    exact ⟨some datum, _, bind_of_ok hread, rfl⟩
  | ldi =>
    obtain ⟨⟨pointer, u⟩, d, hread, hrest⟩ := bind_eq_ok.1 h
    obtain ⟨⟨datum, u'⟩, e, hread', hrest'⟩ := bind_eq_ok.1 hrest
    cases hrest'
    exact ⟨some datum, _, (bind_of_ok hread).trans (bind_of_ok hread'), rfl⟩
  | sti =>
    obtain ⟨⟨pointer, u⟩, d, hread, hrest⟩ := bind_eq_ok.1 h
    cases hrest
    have hkept : u.nzp = t.nzp := nzp_of_read hread
    exact ⟨none, _, rfl, hkept⟩
  | br =>
    cases h
    refine ⟨none, _, rfl, ?_⟩
    split <;> rfl
  | _ =>
    cases h
    exact ⟨_, _, rfl, rfl⟩

theorem result?_of_trap (hop : opcode w = 0xf) : result? w t c = .ok none c := by
  unfold result?
  rw [hop]
  rfl

end Isa

variable {fuel : Nat} {s t : System σ} {last : Option Word}

/-- What is kept is the result of the word that is fetched. -/
theorem keptResult_of_fetch {w : Word} {v : Isa.State} {c d : Channel σ} {result : Option Word}
    (hfetch : Isa.fetch (Isa.view s.machine) s.channel = .ok (w, v) c)
    (hresult : Isa.result? w v c = .ok result d) : keptResult s = result := by
  unfold keptResult
  rw [bind_of_ok hfetch, hresult]

/-! ## Keeping the history -/

/-- The condition is the sign class of the last result, in both places. -/
structure Tells (rs : Registers) (last : Option Word) : Prop where
  coherent : rs.Coherent
  sign : rs.condition.bit = signOfLast last

theorem Tells.of_condition {rs rs' : Registers} (h : Tells rs last)
    (hcondition : rs'.condition = rs.condition)
    (hword : rs'.conditionWord = rs.conditionWord) : Tells rs' last where
  coherent := by
    unfold Registers.Coherent
    rw [hcondition, hword]
    exact h.coherent
  sign := by rw [hcondition, h.sign]

theorem signOfLast_or (result last : Option Word) :
    signOfLast (result.or last) = (result.map Isa.signClass).getD (signOfLast last) := by
  cases result <;> rfl

/-- An instruction that is no trap, fetched and complete, judges the result that is kept. -/
theorem Tells.performed {a w : Word} {v : Isa.State} {m : Machine} {c : Channel σ}
    (h : Tells s.machine.registers last)
    (hfetch : Isa.fetch (Isa.view s.machine) s.channel = .ok (w, v) c)
    (hv : Isa.Shows s.machine m v) (hbefore : v.nzp = signOfLast last)
    (hop : Isa.opcode w ≠ 0x8 ∧ Isa.opcode w ≠ 0xd ∧ Isa.opcode w ≠ 0xf)
    (hperform : perform fuel a (.decode w) ⟨m, c⟩ = .ok () t) :
    Tells t.machine.registers ((keptResult s).or last) := by
  rcases hexec : Isa.execute w v c with ⟨t', d⟩ | ⟨f, d⟩
  · obtain ⟨result, e, hresult, hnzp⟩ := Isa.nzp_of_execute hexec
    obtain ⟨m', hm', ht⟩ := perform_isa fuel a hv hop hexec
    cases hperform.symm.trans hm'
    have hsign : m'.registers.condition.bit = t'.nzp := congrArg Isa.State.nzp ht.view
    rw [keptResult_of_fetch hfetch hresult]
    refine ⟨ht.coherent h.coherent, ?_⟩
    rw [signOfLast_or, hsign, hnzp, hbefore]
  · obtain rfl := hv.view
    obtain ⟨m', hm'⟩ := perform_isa_error fuel a hexec
    cases hperform.symm.trans hm'

theorem Tells.complete (h : Tells s.machine.registers last) (hrun : s.machine.state = .running)
    (hstep : step fuel s = .ok () t) :
    Tells t.machine.registers ((keptResult s).or last) := by
  have hcycle := cycle_of_step_ok hrun hstep
  rcases hread : Isa.read (Isa.view s.machine) s.machine.registers.pc s.channel with
    ⟨⟨w, v⟩, c⟩ | ⟨f, c⟩
  · obtain ⟨m, hm, hv⟩ := readWord_isa (Isa.Shows.refl s.machine) hread
    have hfetch : Isa.fetch (Isa.view s.machine) s.channel =
        .ok (w, { v with pc := s.machine.registers.pc + 1 }) c := bind_of_ok hread
    rw [cycle_of_fetched hm] at hcycle
    have hkind := kind_decode w
    generalize hi : Instruction.decode w = i at hkind
    cases hkind with
    | trap hop =>
      -- A trap has no result, and its frame holds the condition.
      have hframe : TrapFrame fuel _ s (step fuel s) := step_frame hrun ⟨w, _, hm, hi⟩
      rw [hstep] at hframe
      rw [keptResult_of_fetch hfetch (Isa.result?_of_trap hop)]
      exact h.of_condition hframe.condition hframe.conditionWord
    | illegal =>
      rw [hi] at hcycle
      cases hcycle
    | plain hop =>
      have hbefore : v.nzp = signOfLast last := (Isa.nzp_of_read hread).trans h.sign
      exact h.performed hfetch (hv.jump _) hbefore hop hcycle
  · rw [cycle_of_unfetched (readWord_isa_error hread)] at hcycle
    cases hcycle

/-- A failed step keeps no result and no judgement. -/
theorem Tells.stopped (h : Tells s.machine.registers last) (hrun : s.machine.state = .running)
    {e : Stop} (hstep : step fuel s = .error e t) (hlast : e ≠ .outOfFuel) :
    Tells t.machine.registers last := by
  cases e with
  | fault f =>
    have hleaves := faultLeaves_of_step hrun hstep
    exact h.of_condition hleaves.condition hleaves.conditionWord
  | signal => exact absurd hstep (step_quiet fuel s t)
  | outOfFuel => exact absurd rfl hlast

theorem Tells.steps {n : Nat} (h : Tells s.machine.registers last)
    (hlast : ¬OutOfFuel (MachineM.steps fuel n s)) :
    Tells (leftBy (MachineM.steps fuel n s)).machine.registers (lastResult fuel n s last) := by
  induction n generalizing s last with
  | zero => exact h
  | succ n ih =>
    unfold lastResult
    cases hs : s.machine.isRunning with
    | false =>
      rw [steps_guarded fuel (n + 1) s hs]
      exact h
    | true =>
      have hrun : s.machine.state = .running := Machine.isRunning_iff.1 hs
      rw [steps_of_running hs] at hlast ⊢
      rcases hstep : step fuel s with ⟨_, t⟩ | ⟨e, t⟩
      · rw [bind_of_ok hstep] at hlast ⊢
        exact ih (h.complete hrun hstep) hlast
      · rw [bind_of_error hstep] at hlast ⊢
        refine h.stopped hrun hstep ?_
        rintro rfl
        exact hlast ⟨t, rfl⟩

/-- Loading words moves the program counter at most. -/
theorem Tells.place {m : Machine} (h : Tells m.registers last) (origin : Int)
    (words : List Word) : Tells (m.place origin words).registers last := by
  unfold Machine.place
  dsimp only
  split
  · exact h
  · exact ⟨h.coherent.jump _, h.sign⟩

theorem Used.tells (h : Used s last) : Tells s.machine.registers last := by
  induction h with
  | fresh pc channel => exact ⟨Registers.coherent_initial pc, rfl⟩
  | load _ origin words ih => exact ih.place origin words
  | step _ hlast ih =>
    rw [← steps_one] at hlast ⊢
    exact ih.steps hlast
  | @run s last _ fuel hlast ih =>
    have hsteps : ¬OutOfFuel (MachineM.steps fuel fuel s) :=
      fun hout => hlast (runFor_outOfFuel_iff.2 (.inl hout))
    have hleft : leftBy (MachineM.run fuel s) = leftBy (MachineM.steps fuel fuel s) :=
      leftBy_runFor fuel fuel s
    rw [hleft]
    exact ih.steps hsteps
  | @read s last _ a ih =>
    have hread := readWord_readsTo a s
    generalize readWord a s = r at hread
    cases hread with
    | cell => exact ih
    | keyboard => exact ih
    | failed => exact ih
  | write _ a w ih => exact ih

/-- A branch is taken if its mask has the condition. -/
theorem step_branch {w : Word} {u : System σ} (fuel : Nat) (hrun : s.machine.state = .running)
    (hread : readWord s.machine.registers.pc s = .ok w u) (hop : Isa.opcode w = 0) :
    ∃ t, step fuel s = .ok () t ∧ t.machine.registers.pc =
      if Isa.dr w &&& s.machine.registers.condition.bit = 0 then s.machine.registers.pc + 1
      else s.machine.registers.pc + 1 + Isa.offset9 w := by
  let v := Isa.view (fetchedFrom s u).machine
  have hexec : Isa.execute w v u.channel =
      .ok (if Isa.dr w &&& v.nzp = 0 then v else { v with pc := v.pc + Isa.offset9 w })
        u.channel := by
    unfold Isa.execute
    rw [hop]
    rfl
  have hplain : Isa.opcode w ≠ 0x8 ∧ Isa.opcode w ≠ 0xd ∧ Isa.opcode w ≠ 0xf := by
    rw [hop]
    decide
  obtain ⟨m, hm, hshows⟩ :=
    perform_isa fuel s.machine.registers.pc (Isa.Shows.refl _) hplain hexec
  refine ⟨⟨m, u.channel⟩, step_of_ok hrun ((cycle_of_fetched hread).trans hm), ?_⟩
  have hregisters : u.machine.registers = s.machine.registers :=
    ((careful_readWord _).kept s w u hread).registers
  have hnzp : v.nzp = s.machine.registers.condition.bit :=
    congrArg (fun rs => rs.condition.bit) hregisters
  have hpc := congrArg Isa.State.pc hshows.view
  rw [hnzp] at hpc
  refine hpc.trans ?_
  split <;> rfl

theorem snapshot_condition (rs : Registers) : rs.snapshot[9]? = some rs.conditionWord := by
  have hlength : rs.general.toList.length = 8 := rs.general.length_toList
  unfold Registers.snapshot
  rw [List.getElem?_append_right (by omega), hlength]
  rfl

/-- However a machine has been used, its condition is one of the three bits, in both places where it
is kept, so that it is the tenth word of the registers. It is the sign class of the last result, or
that of zero before the first one. A branch that is executed next is taken if its mask has that sign
class. -/
theorem condition_is_sign_of_last (h : Used s last) :
    s.machine.registers.conditionWord ∈ ([1, 2, 4] : List Word) ∧
      s.machine.registers.condition.toWord = s.machine.registers.conditionWord ∧
      s.machine.registers.snapshot[9]? = some s.machine.registers.condition.toWord ∧
      s.machine.registers.condition.toWord = (signOfLast last).setWidth 16 ∧
      (s.machine.state = .running → ∀ w u, readWord s.machine.registers.pc s = .ok w u →
        Isa.opcode w = 0 → ∀ fuel, ∃ t, step fuel s = .ok () t ∧ t.machine.registers.pc =
          if Isa.dr w &&& signOfLast last = 0 then s.machine.registers.pc + 1
          else s.machine.registers.pc + 1 + Isa.offset9 w) := by
  obtain ⟨hcoherent, hsign⟩ := h.tells
  have hword : s.machine.registers.condition.toWord = s.machine.registers.conditionWord :=
    hcoherent.symm
  refine ⟨?_, hword, ?_, congrArg (BitVec.setWidth 16) hsign, fun hrun w u hread hop fuel => ?_⟩
  · rw [← hword]
    cases s.machine.registers.condition <;> decide
  · rw [hword]
    exact snapshot_condition _
  · rw [← hsign]
    exact step_branch fuel hrun hread hop

/-- Counts down in R1, asks for a character and starts again if the count is negative. -/
def countdown : System Scripted :=
  ⟨(Machine.fresh 0).place 0 [0x127f, 0xf020, 0x09fd], { device := { reads := [.ok 0x41] } }⟩

theorem condition_is_sign_of_last_countdown :
    ∃ s t : System Scripted, Used s (some 0xffff) ∧ s.machine.registers.get 0 = 0x41 ∧
      s.machine.registers.condition.toWord = 4 ∧ step 0 s = .ok () t ∧
      t.machine.registers.pc = 0 := by
  have hloaded : Used countdown none := (Used.fresh 0 _).load 0 [0x127f, 0xf020, 0x09fd]
  have hcounted : Used (leftBy (step 0 countdown)) (some 0xffff) := by
    have hresult : lastResult 0 1 countdown none = some 0xffff := by decide +kernel
    rw [← hresult]
    exact hloaded.step (by decide +kernel)
  let s := leftBy (step 0 (leftBy (step 0 countdown)))
  have hasked : Used s (some 0xffff) := by
    have hresult : lastResult 0 1 (leftBy (step 0 countdown)) (some 0xffff) = some 0xffff := by
      decide +kernel
    rw [← hresult]
    exact hcounted.step (by decide +kernel)
  have hpc : s.machine.registers.pc = 2 := by decide +kernel
  have hword : s.machine.memory.read 2 = 0x09fd := by decide +kernel
  have hread : readWord s.machine.registers.pc s = .ok 0x09fd s := by
    rw [hpc, readWord_of_ne (by decide), hword]
  obtain ⟨-, -, -, hcondition, hbranch⟩ := condition_is_sign_of_last hasked
  obtain ⟨t, ht, hback⟩ := hbranch (by decide +kernel) _ _ hread rfl 0
  refine ⟨s, t, hasked, by decide +kernel, hcondition, ht, ?_⟩
  rw [hback, hpc]
  rfl

end LC3
