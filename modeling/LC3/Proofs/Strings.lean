import LC3.Proofs.Careful
import LC3.Proofs.FlushBlind

/-!
# Strings that end

The services that print a stored string look for its end through all of memory, which wraps around
and need not hold a zero anywhere. They come to an end because of the keyboard: once in every round
the status register is read, and it reads zero when there is no key. A console that has only so many
keys left therefore bounds the search, and with it every step.

The measure is a round of memory for each key that is left, and the way to the status register.
-/

namespace LC3

open MachineM

variable {σ : Type} [Console σ] {B : Nat → σ → Prop} {fuel k : Nat} {s : System σ}

/-! ## Rations -/

/-- `B k` says of a device that it gives at most `k` more keys to polls, and writing does not bring
new ones. -/
structure Rations (B : Nat → σ → Prop) : Prop where
  key {k : Nat} {d : σ} {code : Int} (h : B k d)
      (hkey : (Console.poll d).answer = .ok (some code)) :
    ∃ j, k = j + 1 ∧ B j (Console.poll d).device
  write {k : Nat} {d : σ} (code : Int) (h : B k d) : B k (Console.write code d).device

/-- The number of keys that it takes to read a word that is not zero. -/
def toll (a : Word) : Nat := if a = Machine.keyboardStatus then 1 else 0

/-- The number of words before the status register. -/
def distance (a : Word) : Nat := (Machine.keyboardStatus - a).toNat

theorem distance_lt (a : Word) : distance a < 65536 := (Machine.keyboardStatus - a).isLt

theorem distance_succ (a : Word) : distance (a + 1) + 1 = distance a + toll a * 65536 := by
  unfold distance toll Machine.keyboardStatus
  split
  · next h =>
    subst h
    rfl
  · next h =>
    bv_omega

/-- A word that is not zero has to be paid for. -/
theorem read_toll (hB : B k s.channel.device)
    (hkey : ∀ code, (Console.poll s.channel.device).answer = .ok (some code) →
      ∃ j, k = j + 1 ∧ B j (Console.poll s.channel.device).device)
    {a w : Word} {t : System σ} (hread : readWord a s = .ok w t) (hw : w ≠ 0) :
    ∃ j, k = j + toll a ∧ B j t.channel.device := by
  have hreads := readWord_readsTo a s
  rw [hread] at hreads
  cases hreads with
  | cell ha => exact ⟨k, by rw [toll, if_neg ha]; rfl, hB⟩
  | @keyboard ha key c hpoll =>
    obtain ⟨hanswer, rfl⟩ := exchange_eq_ok.1 hpoll
    cases key with
    | none =>
      have hzero : (polled s.machine.memory none).read a = 0 := by
        rw [ha]
        exact Memory.read_write_self ..
      exact absurd hzero hw
    | some code =>
      obtain ⟨j, hj, hB'⟩ := hkey code hanswer
      exact ⟨j, by rw [toll, if_pos ha]; exact hj, hB'⟩

theorem Rations.read (h : Rations B) (hB : B k s.channel.device) {a w : Word} {t : System σ}
    (hread : readWord a s = .ok w t) (hw : w ≠ 0) :
    ∃ j, k = j + toll a ∧ B j t.channel.device := read_toll hB (fun _ => h.key hB) hread hw

/-! ## Searches -/

omit [Console σ] in
theorem atChannel_lasting {α : Type} (use : ChannelM σ α) (s : System σ) :
    ¬OutOfFuel (atChannel use s) := by
  rintro ⟨t, h⟩
  obtain ⟨f, hf⟩ := atChannel_stop h
  cases hf

theorem readWord_lasting (a : Word) (s : System σ) : ¬OutOfFuel (readWord a s) := by
  have hreads := readWord_readsTo a s
  generalize readWord a s = r at hreads
  cases hreads with
  | cell ha => exact nofun
  | keyboard ha hpoll => exact nofun
  | failed ha hpoll => exact nofun

/-- With each unit of fuel `f` gets past one word, and words that are not zero are paid for. -/
def Searches (B : Nat → σ → Prop) (f : Nat → Word → MachineM σ Unit) : Prop :=
  ∀ fuel a k s, B k s.channel.device → OutOfFuel (f (fuel + 1) a s) →
    ∃ j t, k = j + toll a ∧ B j t.channel.device ∧ OutOfFuel (f fuel (a + 1) t)

theorem Rations.behind_word (h : Rations B) (hB : B k s.channel.device) {a : Word}
    {rest : Word → MachineM σ Unit}
    (hout : OutOfFuel ((readWord a >>= fun w => if w = 0 then pure () else rest w) s)) :
    ∃ w j t, k = j + toll a ∧ B j t.channel.device ∧ OutOfFuel (rest w t) := by
  rcases outOfFuel_bind hout with hread | ⟨w, t, hread, hrest⟩
  · exact absurd hread (readWord_lasting a s)
  by_cases hw : w = 0
  · rw [if_pos hw] at hrest
    exact absurd hrest nofun
  · rw [if_neg hw] at hrest
    obtain ⟨j, hj, hB⟩ := h.read hB hread hw
    exact ⟨w, j, t, hj, hB, hrest⟩

theorem Rations.behind_byte (h : Rations B) (hB : B k s.channel.device) {b : UInt8}
    {rest : Unit → MachineM σ Unit} (hout : OutOfFuel ((writeByte b >>= rest) s)) :
    ∃ t, B k t.channel.device ∧ OutOfFuel (rest () t) := by
  rcases outOfFuel_bind hout with hwrite | ⟨_, t, hwrite, hrest⟩
  · exact absurd hwrite (atChannel_lasting _ s)
  · obtain ⟨hchannel, -⟩ := atChannel_eq_ok.1 hwrite
    refine ⟨t, ?_, hrest⟩
    rw [(exchange_eq_ok.1 hchannel).2]
    exact h.write _ hB

theorem putWords_searches (h : Rations B) : Searches B putWords := by
  intro fuel a k s hB hout
  obtain ⟨w, j, t, hj, hB, hout⟩ := h.behind_word hB hout
  obtain ⟨u, hB, hout⟩ := h.behind_byte hB hout
  exact ⟨j, u, hj, hB, hout⟩

theorem putBytes_searches (h : Rations B) : Searches B putBytes := by
  intro fuel a k s hB hout
  obtain ⟨w, j, t, hj, hB, hout⟩ := h.behind_word hB hout
  obtain ⟨u, hB, hout⟩ := h.behind_byte hB hout
  by_cases hhigh : w.high = 0
  · rw [if_pos hhigh] at hout
    exact absurd hout nofun
  · rw [if_neg hhigh] at hout
    obtain ⟨v, hB, hout⟩ := h.behind_byte hB hout
    exact ⟨j, v, hj, hB, hout⟩

omit [Console σ] in
theorem Searches.lasting {f : Nat → Word → MachineM σ Unit} (h : Searches B f) {a : Word}
    (hB : B k s.channel.device) (hfuel : distance a + 1 + k * 65536 ≤ fuel) :
    ¬OutOfFuel (f fuel a s) := by
  -- Each word takes a unit of fuel and brings the status register closer. At the status register
  -- the way grows by a round of memory, which the key taken there makes up for.
  induction fuel generalizing a k s with
  | zero => omega
  | succ fuel ih =>
    intro hout
    obtain ⟨j, t, hk, hB', hout'⟩ := h fuel a k s hB hout
    have hdistance := distance_succ a
    exact ih hB' (by rw [hk, Nat.add_mul] at hfuel; omega) hout'

omit [Console σ] in
theorem Searches.lasting_of_rounds {f : Nat → Word → MachineM σ Unit} (h : Searches B f)
    (a : Word) (hB : B k s.channel.device) (hfuel : (k + 1) * 65536 ≤ fuel) :
    ¬OutOfFuel (f fuel a s) := by
  have hdistance := distance_lt a
  exact h.lasting hB (by rw [Nat.add_mul] at hfuel; omega)

/-! ## Steps -/

/-- Whatever a program does there are at most `k` keys left. -/
abbrev Bounded (B : Nat → σ → Prop) (k : Nat) : Prop :=
  ChannelSimulation (fun c => B k c.device) (fun _ _ => False : Channel σ → Channel σ → Prop)

/-- Fuel does not run out while there are at most `k` keys left. -/
def Rationed (B : Nat → σ → Prop) (k : Nat) (s : System σ) (e : Stop) (_ : System σ) : Prop :=
  B k s.channel.device → e ≠ .outOfFuel

def KeepsRation (B : Nat → σ → Prop) (k : Nat) (s t : System σ) : Prop :=
  B k s.channel.device → B k t.channel.device

omit [Console σ] in
theorem careful_of_lasting {α : Type} {x : MachineM σ α}
    (h : Agree (fun s => B k s.channel.device)
      (OnSameMachine (fun _ _ => False : Channel σ → Channel σ → Prop)) x x)
    (hlast : ∀ s, B k s.channel.device → ¬OutOfFuel (x s)) :
    Careful (KeepsRation B k) (Rationed B k) x := by
  refine ⟨fun s a t ht hB => ?_, fun s e t ht hB he => ?_⟩
  · have hlost := h.lost s hB
    rwa [ht] at hlost
  · subst he
    exact hlast s hB ⟨t, ht⟩

theorem rationed_carefulConsole (hB : Bounded B k) :
    CarefulConsole (KeepsRation B k) (Rationed B k) where
  refl _ h := h
  trans h h' hB := h' (h hB)
  stop h h' hB := h' (h hB)
  readWord a := careful_of_lasting (hB.simulation.readWord a) fun s _ => readWord_lasting a s
  write code := careful_of_lasting (hB.simulation.write code) fun s _ => atChannel_lasting _ s
  flush := careful_of_lasting hB.simulation.flush fun s _ => atChannel_lasting _ s

theorem perform_rationed (h : Rations B) (hB : Bounded B k) (hfuel : (k + 1) * 65536 ≤ fuel)
    (address : Word) (i : Instruction) : StopsOnly (Rationed B k) (perform fuel address i) := by
  intro s e t ht hBs he
  subst he
  by_cases htrap : ∃ vector, i = .trap vector
  · obtain ⟨vector, rfl⟩ := htrap
    have hcall := perform_trap_eq_error.1 ht
    unfold callService at hcall
    rcases hservice : Service.ofVector? vector.toNat with _ | service
    · rw [hservice] at hcall
      cases hcall
    · rw [hservice] at hcall
      have hserve : StopsOnly (Rationed B k) (serve fuel service) := by
        refine (rationed_carefulConsole hB).serve (fun _ => ?_) (fun a => ?_) fun a => ?_
        · exact careful_of_lasting hB.simulation.read fun s _ => atChannel_lasting _ s
        · exact careful_of_lasting (hB.simulation.putWords (Nat.le_refl fuel) a) fun s hs =>
            (putWords_searches h).lasting_of_rounds a hs hfuel
        · exact careful_of_lasting (hB.simulation.putBytes (Nat.le_refl fuel) a) fun s hs =>
            (putBytes_searches h).lasting_of_rounds a hs hfuel
      exact hserve _ _ _ hcall hBs rfl
  · by_cases hillegal : ∃ o, i = .illegal o
    · obtain ⟨o, rfl⟩ := hillegal
      cases ht
    · have hperform : StopsOnly (Rationed B k) (perform fuel address i) :=
        (rationed_carefulConsole hB).perform address (fun vector hv => htrap ⟨vector, hv⟩)
          fun o ho => hillegal ⟨o, ho⟩
      exact hperform _ _ _ ht hBs rfl

theorem step_lasting (h : Rations B) (hB : Bounded B k) (hfuel : (k + 1) * 65536 ≤ fuel)
    (hs : B k s.channel.device) : ¬OutOfFuel (step fuel s) := by
  rintro ⟨t, ht⟩
  rcases hstate : s.machine.state with _ | _
  · have hcycle := cycle_of_step_outOfFuel hstate ht
    rcases hread : readWord s.machine.registers.pc s with ⟨w, u⟩ | ⟨e, u⟩
    · rw [cycle_of_fetched hread] at hcycle
      have hkept := (hB.simulation.readWord s.machine.registers.pc).lost s hs
      rw [hread] at hkept
      exact perform_rationed h hB hfuel _ _ _ _ _ hcycle hkept rfl
    · rw [cycle_of_unfetched hread] at hcycle
      cases hcycle
      exact readWord_lasting _ s ⟨t, hread⟩
  · rw [step_of_halted hstate] at ht
    cases ht

/-- Any number of steps come to an end, with fuel for a round of memory more than there are keys. -/
theorem steps_lasting (h : Rations B) (hB : Bounded B k) (hfuel : (k + 1) * 65536 ≤ fuel) (n : Nat)
    (hs : B k s.channel.device) : ¬OutOfFuel (steps fuel n s) := by
  induction n generalizing s with
  | zero => exact nofun
  | succ n ih =>
    cases hrun : s.machine.isRunning with
    | false =>
      rw [steps_guarded fuel (n + 1) s hrun]
      exact nofun
    | true =>
      rw [steps_of_running hrun]
      intro hout
      rcases outOfFuel_bind hout with hstep | ⟨_, u, hstep, hrest⟩
      · exact step_lasting h hB hfuel hs hstep
      · have hkept := (hB.simulation.step (Nat.le_refl fuel)).lost s hs
        rw [hstep] at hkept
        exact ih hkept hrest

/-! ## Queues -/

/-- There are at most `k` keys in the queue. -/
def Queue.Within (k : Nat) (q : Queue) : Prop := q.waiting.length ≤ k

theorem queue_rations : Rations Queue.Within where
  key {k q code} h hkey := by
    obtain ⟨waiting, flushed, pending⟩ := q
    cases waiting with
    | nil => cases hkey
    | cons code' rest =>
      have hlength : rest.length + 1 ≤ k := h
      exact ⟨k - 1, by omega, Nat.le_sub_of_add_le hlength⟩
  write _ h := h

theorem queue_bounded (k : Nat) : Bounded Queue.Within k where
  read := by
    refine ⟨fun c h => ?_, fun _ _ => False.elim⟩
    obtain ⟨⟨waiting, flushed, pending⟩, journal⟩ := c
    cases waiting with
    | nil => exact h
    | cons code rest => exact Nat.le_of_succ_le h
  poll := by
    refine ⟨fun c h => ?_, fun _ _ => False.elim⟩
    obtain ⟨⟨waiting, flushed, pending⟩, journal⟩ := c
    cases waiting with
    | nil => exact h
    | cons code rest => exact Nat.le_of_succ_le h
  write _ := ⟨fun _ h => h, fun _ _ => False.elim⟩
  flush := ⟨fun _ h => h, fun _ _ => False.elim⟩
  pauseLost _ h := h
  pause _ _ h := h.elim

/-! ## Hosts -/

namespace Line

/-- There are at most `k` keystrokes in the script. -/
def Within (k : Nat) (line : Line) : Prop := line.keys.length ≤ k

theorem length_nextKey (keys : List Keystroke) : (nextKey keys).2.1.length ≤ keys.length := by
  induction keys with
  | nil => exact Nat.le_refl 0
  | cons key rest ih =>
    cases key with
    | broken f => exact Nat.le_succ _
    | text s =>
      unfold nextKey
      split
      · exact Nat.le_succ _
      · split
        · exact Nat.le_trans ih (Nat.le_succ _)
        · exact Nat.le_succ _

/-- A key takes a keystroke. -/
theorem length_nextKey_lt {keys : List Keystroke} {code : Int} (h : (nextKey keys).1 = .ok code) :
    (nextKey keys).2.1.length < keys.length := by
  cases keys with
  | nil => cases h
  | cons key rest =>
    cases key with
    | broken f => cases h
    | text s =>
      have hrest : (nextKey (.text s :: rest)).2.1.length ≤ rest.length := by
        unfold nextKey
        split
        · exact Nat.le_refl _
        · split
          · exact length_nextKey rest
          · exact Nat.le_refl _
      exact Nat.lt_succ_of_le hrest

end Line

theorem line_rations : Rations Line.Within where
  key {k line code} h hkey := by
    have hanswer : (Line.nextKey line.keys).1.map some = .ok (some code) := hkey
    obtain ⟨code', hcode⟩ : ∃ code', (Line.nextKey line.keys).1 = .ok code' := by
      rcases hnext : (Line.nextKey line.keys).1 with f | code'
      · rw [hnext] at hanswer
        cases hanswer
      · exact ⟨code', rfl⟩
    have hlength : line.keys.length ≤ k := h
    have hless := Line.length_nextKey_lt hcode
    exact ⟨k - 1, by omega, Nat.le_sub_one_of_lt (Nat.lt_of_lt_of_le hless hlength)⟩
  write code h := Nat.le_trans (Nat.le_of_eq (congrArg _ (Line.write_quiet code _).2.1)) h

theorem line_bounded (k : Nat) : Bounded Line.Within k where
  read := ⟨fun _ h => Nat.le_trans (Line.length_nextKey _) h, fun _ _ => False.elim⟩
  poll := ⟨fun _ h => Nat.le_trans (Line.length_nextKey _) h, fun _ _ => False.elim⟩
  write _ := ⟨fun _ h => line_rations.write _ h, fun _ _ => False.elim⟩
  flush :=
    ⟨fun _ h => Nat.le_trans (Nat.le_of_eq (congrArg _ (Line.keys_flush _))) h,
      fun _ _ => False.elim⟩
  pauseLost _ h := h
  pause _ _ h := h.elim

end LC3
