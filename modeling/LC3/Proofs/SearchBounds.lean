import LC3.Proofs.Absorption
import LC3.Proofs.StoredStrings
import LC3.Proofs.Strings

/-!
# What a search costs

Printing a stored string costs words that are read and keys that are taken. Both are bounded by the
keys that the console still has: a round of memory for each of them and one more. Memory itself need
not hold a zero anywhere, for what ends the search in the last resort is the status register of a
keyboard without a key.

Only what the search itself does to the console counts, which is to poll and to write bytes. How
many keys there would be behind a failure, or behind a poll that found none, makes no difference.
-/

namespace LC3

open MachineM

variable {σ α β : Type}

/-! ## Keys taken -/

/-- Whether a call took a key. -/
def Call.isKey : Call → Bool
  | .read (.ok _) => true
  | .poll (.ok (some _)) => true
  | _ => false

/-- From `s`, `x` takes at most `n` keys, whether it is complete or not. -/
def TakesAtMost (x : MachineM σ α) (s : System σ) (n : Nat) : Prop :=
  ∃ made, Makes x s made ∧ made.countP Call.isKey ≤ n

variable {x : MachineM σ α} {f : α → MachineM σ β} {s t : System σ} {i j n : Nat}

theorem TakesAtMost.mono (h : TakesAtMost x s i) (hij : i ≤ j) : TakesAtMost x s j := by
  obtain ⟨made, hmade, hcount⟩ := h
  exact ⟨made, hmade, Nat.le_trans hcount hij⟩

theorem takesAtMost_silent (h : (leftBy (x s)).channel = s.channel) : TakesAtMost x s 0 :=
  ⟨[], makes_nothing h, Nat.le_refl 0⟩

theorem TakesAtMost.bind (hx : TakesAtMost x s i)
    (hf : ∀ a t, x s = .ok a t → TakesAtMost (f a) t j) : TakesAtMost (x >>= f) s (i + j) := by
  obtain ⟨made, hmade, hcount⟩ := hx
  rcases h : x s with ⟨a, t⟩ | ⟨e, t⟩
  · obtain ⟨made', hmade', hcount'⟩ := hf a t h
    refine ⟨made ++ made', hmade.bind_ok h hmade', ?_⟩
    rw [List.countP_append]
    exact Nat.add_le_add hcount hcount'
  · exact ⟨made, hmade.bind_error h, Nat.le_add_right_of_le hcount⟩

theorem TakesAtMost.bind_silent (hx : TakesAtMost x s n)
    (hf : ∀ a t, (leftBy (f a t)).channel = t.channel) : TakesAtMost (x >>= f) s n :=
  hx.bind fun a t _ => takesAtMost_silent (hf a t)

theorem TakesAtMost.of_eq {y : MachineM σ α} (h : TakesAtMost y t n) (hxy : x s = y t)
    (hchannel : t.channel = s.channel) : TakesAtMost x s n := by
  unfold TakesAtMost Makes at *
  rw [hxy, ← hchannel]
  exact h

/-! ## Keys left -/

variable [Console σ]

/-- `Delivers d n`: the device can be made to give `n` keys to polls, one after the other and with
bytes that it takes written in between. -/
inductive Delivers : σ → Nat → Prop where
  | nothing (d : σ) : Delivers d 0
  | byte {d : σ} {n : Nat} (b : UInt8) (htaken : (Console.write b.toNat d).answer = .ok ())
      (h : Delivers (Console.write b.toNat d).device n) : Delivers d n
  | key {d : σ} {n : Nat} {code : Int} (hkey : (Console.poll d).answer = .ok (some code))
      (h : Delivers (Console.poll d).device n) : Delivers d (n + 1)

/-- Polls take at most `k` keys before one of them finds none or fails. -/
def KeysWithin (k : Nat) (d : σ) : Prop := ∀ n, Delivers d n → n ≤ k

section

variable {d : σ} {k : Nat}

theorem KeysWithin.byte {b : UInt8} (h : KeysWithin k d)
    (htaken : (Console.write b.toNat d).answer = .ok ()) :
    KeysWithin k (Console.write b.toNat d).device := fun n hn => h n (.byte b htaken hn)

theorem KeysWithin.key {code : Int} (h : KeysWithin k d)
    (hkey : (Console.poll d).answer = .ok (some code)) :
    ∃ j, k = j + 1 ∧ KeysWithin j (Console.poll d).device := by
  have hone : 1 ≤ k := h 1 (.key hkey (.nothing _))
  exact ⟨k - 1, by omega, fun n hn => Nat.le_sub_one_of_lt (h (n + 1) (.key hkey hn))⟩

/-- Who gives at most so many keys whatever is done does so under polls and bytes. -/
theorem Rations.keysWithin {B : Nat → σ → Prop} (hB : Rations B) (h : B k d) : KeysWithin k d := by
  intro n hn
  induction hn generalizing k with
  | nothing d => exact Nat.zero_le k
  | byte b _ _ ih => exact ih (hB.write _ h)
  | key hkey _ ih =>
    obtain ⟨j, rfl, hj⟩ := hB.key h hkey
    exact Nat.succ_le_succ (ih hj)

end

theorem queue_keysWithin (q : Queue) : KeysWithin q.waiting.length q :=
  queue_rations.keysWithin (Nat.le_refl _)

theorem line_keysWithin (line : Line) : KeysWithin line.keys.length line :=
  line_rations.keysWithin (Nat.le_refl _)

/-! ## Parts of a search -/

variable {k : Nat} {a w : Word}

/-- A word that is read takes a key only at the status register, and only where there is one. -/
theorem KeysWithin.readWord (h : KeysWithin k s.channel.device) (a : Word) :
    TakesAtMost (readWord a) s (min k (toll a)) := by
  by_cases ha : a = Machine.keyboardStatus
  · have hpoll : TakesAtMost (atChannel Channel.poll) s (min k (toll a)) := by
      refine ⟨_, makes_exchange .., ?_⟩
      rcases hanswer : (Console.poll s.channel.device).answer with f | _ | code
      · exact Nat.zero_le _
      · exact Nat.zero_le _
      · obtain ⟨j, rfl, -⟩ := h.key hanswer
        rw [toll, if_pos ha]
        exact Nat.le_min.2 ⟨Nat.le_add_left 1 j, Nat.le_refl 1⟩
    rw [readWord_eq, if_pos ha]
    refine TakesAtMost.bind_silent (hpoll.bind_silent fun key t => ?_) fun _ _ => rfl
    cases key with
    | some key => rfl
    | none => rfl
  · refine (takesAtMost_silent ?_).mono (Nat.zero_le _)
    rw [readWord_of_ne ha]
    rfl

theorem writeBytes_takes (bytes : List UInt8) (s : System σ) :
    TakesAtMost (writeBytes bytes) s 0 := by
  obtain ⟨made, hmade, hpart, -⟩ := inTurn_writeBytes bytes s
  refine ⟨made, hmade, Nat.le_of_eq (List.countP_eq_zero.2 fun c hc => ?_)⟩
  obtain ⟨b, -, rfl⟩ := List.mem_map.1 (hpart.subset hc)
  exact Bool.false_ne_true

theorem KeysWithin.behind_bytes {bytes : List UInt8} (h : KeysWithin k s.channel.device)
    (hbytes : writeBytes bytes s = .ok () t) : KeysWithin k t.channel.device := by
  induction bytes generalizing s with
  | nil =>
    cases hbytes
    exact h
  | cons b bytes ih =>
    rw [writeBytes_cons] at hbytes
    obtain ⟨_, u, hbyte, hrest⟩ := bind_eq_ok.1 hbytes
    obtain ⟨htaken, hu⟩ := exchange_eq_ok.1 (atChannel_eq_ok.1 hbyte).1
    refine ih ?_ hrest
    rw [hu]
    exact h.byte htaken

/-! ## Searches -/

/-- From `s`, `x` comes to an end, and before that reads at most `n` words and takes at most `k`
keys. It has come to its end when it has gone as many rounds as it may read words. -/
structure EndsWithin (x : Nat → MachineM σ α) (reads : Nat → System σ → List Word) (s : System σ)
    (n k : Nat) : Prop where
  lasts : ∀ fuel, n ≤ fuel → ¬OutOfFuel (x fuel s)
  words : ∀ fuel, (reads fuel s).length ≤ n
  keys : ∀ fuel, TakesAtMost (x fuel) s k

omit [Console σ] in
theorem EndsWithin.ends {x : Nat → MachineM σ α} {reads : Nat → System σ → List Word}
    (h : EndsWithin x reads s n k) : Ends x s :=
  ⟨_, endsIn_of_lasting (h.lasts n (Nat.le_refl n))⟩

section Search

variable {put : Word → MachineM σ Bool} {bytes : Word → List UInt8} {more : Word → Bool}
  {fuel : Nat} (hput : ∀ w, put w = (do writeBytes (bytes w); return more w))

include hput

theorem put_takes (w : Word) (s : System σ) : TakesAtMost (put w) s 0 := by
  rw [hput]
  exact (writeBytes_takes (bytes w) s).bind_silent fun _ _ => rfl

theorem KeysWithin.behind_put {b : Bool} (h : KeysWithin k s.channel.device)
    (hb : put w s = .ok b t) : KeysWithin k t.channel.device := by
  rw [hput] at hb
  obtain ⟨_, u, hbytes, hpure⟩ := bind_eq_ok.1 hb
  cases hpure
  exact h.behind_bytes hbytes

/-- As many words are read as there are up to the status register, and a round of memory for each
key that makes the search go on there. -/
theorem length_searched_le (h : KeysWithin k s.channel.device) :
    (searched put fuel a s).length ≤ distance a + 1 + k * 65536 := by
  -- At the status register the way to it grows by a round of memory. The key that was taken there
  -- leaves one less, and that makes up for it.
  induction fuel generalizing a k s with
  | zero => exact Nat.zero_le _
  | succ fuel ih =>
    unfold searched
    rcases hread : readWord a s with ⟨w, t⟩ | ⟨e, t⟩
    · show (a :: if w = 0 then [] else _).length ≤ _
      by_cases hw : w = 0
      · rw [if_pos hw]
        exact Nat.le_add_right_of_le (Nat.le_add_left 1 _)
      rw [if_neg hw, List.length_cons]
      obtain ⟨j, rfl, hj⟩ := read_toll h (fun _ => h.key) hread hw
      rcases hmore : put w t with ⟨b | _, u⟩ | ⟨e, u⟩
      · show 0 + 1 ≤ _
        omega
      · have hrest : (searched put fuel (a + 1) u).length ≤ distance (a + 1) + 1 + j * 65536 :=
          ih (hj.behind_put hput hmore)
        have hdistance := distance_succ a
        rw [Nat.add_mul]
        show (searched put fuel (a + 1) u).length + 1 ≤ _
        omega
      · show 0 + 1 ≤ _
        omega
    · show 1 ≤ _
      omega

/-- A search in which fuel runs out reads another word if it is given one more unit. -/
theorem length_searched_of_outOfFuel (h : OutOfFuel (search put fuel a s)) :
    (searched put (fuel + 1) a s).length = fuel + 1 := by
  induction fuel generalizing a s with
  | zero =>
    simp only [searched, ite_self, behind_nil]
    rfl
  | succ fuel ih =>
    rcases outOfFuel_bind h with hread | ⟨w, t, hread, hrest⟩
    · exact absurd hread (readWord_lasting a s)
    unfold searched
    rw [hread]
    show (a :: if w = 0 then [] else _).length = _
    by_cases hw : w = 0
    · rw [if_pos hw] at hrest
      exact absurd hrest (lasting_ok _ _)
    rw [if_neg hw] at hrest ⊢
    rcases outOfFuel_bind hrest with hout | ⟨b, u, hb, hrest⟩
    · rw [hput] at hout
      rcases outOfFuel_bind hout with hout | ⟨_, _, _, hout⟩
      · exact absurd hout (atChannel_lasting _ t)
      · exact absurd hout (lasting_ok _ _)
    rw [hb]
    cases b with
    | true => exact congrArg Nat.succ (ih hrest)
    | false => exact absurd hrest (lasting_ok _ _)

theorem search_takes (h : KeysWithin k s.channel.device) : TakesAtMost (search put fuel a) s k := by
  induction fuel generalizing a k s with
  | zero => exact (takesAtMost_silent rfl).mono (Nat.zero_le k)
  | succ fuel ih =>
    -- Behind a word that is not zero there are as many keys less as it took.
    have hread : TakesAtMost (search put (fuel + 1) a) s (min k (toll a) + (k - toll a)) := by
      refine (h.readWord a).bind fun w t hread => ?_
      by_cases hw : w = 0
      · rw [if_pos hw]
        exact (takesAtMost_silent rfl).mono (Nat.zero_le _)
      rw [if_neg hw]
      obtain ⟨j, hk, hj⟩ := read_toll h (fun _ => h.key) hread hw
      obtain rfl : j = k - toll a := by omega
      refine ((put_takes hput w t).bind fun b u hb => ?_).mono (Nat.le_of_eq (Nat.zero_add _))
      cases b with
      | true => exact ih (hj.behind_put hput hb)
      | false => exact (takesAtMost_silent rfl).mono (Nat.zero_le _)
    exact hread.mono (by omega)

theorem search_ends_within (h : KeysWithin k s.channel.device) (a : Word) :
    EndsWithin (search put · a) (searched put · a) s ((k + 1) * 65536) k := by
  have hlength (fuel : Nat) : (searched put fuel a s).length ≤ (k + 1) * 65536 := by
    have hsearched : (searched put fuel a s).length ≤ distance a + 1 + k * 65536 :=
      length_searched_le hput h
    have hdistance := distance_lt a
    rw [Nat.add_mul]
    omega
  refine ⟨fun fuel hfuel hout => ?_, hlength, fun _ => search_takes hput h⟩
  have hmore := hlength (fuel + 1)
  rw [length_searched_of_outOfFuel hput hout] at hmore
  omega

end Search

/-! ## Services -/

variable {service : Service} {vector : BitVec 8} {reads : Nat → System σ → List Word}

/-- The two services that print a stored string. -/
def Service.printsString : Service → Bool
  | .putWords | .putBytes => true
  | _ => false

theorem EndsWithin.serve {y : Nat → MachineM σ Unit} (h : EndsWithin y reads s n k)
    (hserve : ∀ fuel,
      MachineM.serve fuel service s = (do y fuel; return .running : MachineM σ RunState) s)
    (hreads : ∀ fuel, service.reads fuel s = reads fuel s) :
    EndsWithin (MachineM.serve · service) (service.reads · ·) s n k := by
  refine ⟨fun fuel hfuel hout => ?_, fun fuel => ?_, fun fuel => ?_⟩
  · rw [hserve] at hout
    rcases outOfFuel_bind hout with hsearch | ⟨_, _, _, hpure⟩
    · exact h.lasts fuel hfuel hsearch
    · exact absurd hpure (lasting_ok _ _)
  · rw [hreads]
    exact h.words fuel
  · exact ((h.keys fuel).bind_silent fun _ _ => rfl).of_eq (hserve fuel) rfl

theorem serve_ends_within (hservice : service.printsString = true)
    (h : KeysWithin k s.channel.device) :
    EndsWithin (serve · service) (service.reads · ·) s ((k + 1) * 65536) k := by
  cases service with
  | putWords =>
    refine (search_ends_within putLow_eq h (s.machine.registers.get 0)).serve (fun fuel => ?_)
      fun _ => rfl
    rw [← putWords_eq_search]
    rfl
  | putBytes =>
    refine (search_ends_within putBoth_eq h (s.machine.registers.get 0)).serve (fun fuel => ?_)
      fun _ => rfl
    rw [← putBytes_eq_search]
    rfl
  | _ => cases hservice

/-- The word of a trap is read before those that its service reads. -/
theorem stepReads_of_service {fuel : Nat} (hrun : s.machine.state = .running)
    (h : Fetches s (.trap vector)) (hservice : Service.ofVector? vector.toNat = some service) :
    stepReads fuel s = s.machine.registers.pc :: service.reads fuel (trapped s) := by
  obtain ⟨w, hread, htrap⟩ := h.unpolled
  unfold stepReads
  rw [if_pos (Machine.isRunning_iff.2 hrun), hread]
  show _ :: (Instruction.decode w).reads fuel (fetchedFrom s s) = _
  rw [htrap, Instruction.reads, hservice]
  rfl

theorem EndsWithin.step (hrun : s.machine.state = .running) (hfetch : Fetches s (.trap vector))
    (hservice : Service.ofVector? vector.toNat = some service)
    (h : EndsWithin (MachineM.serve · service) (service.reads · ·) (trapped s) n k) :
    EndsWithin MachineM.step stepReads s (n + 1) k := by
  have hcycle (fuel : Nat) : cycle fuel s =
      (do setState (← MachineM.serve fuel service) : MachineM σ Unit) (trapped s) :=
    cycle_of_service hfetch hservice
  refine ⟨fun fuel hfuel ⟨t, ht⟩ => ?_, fun fuel => ?_, fun fuel => ?_⟩
  · have hout : OutOfFuel (cycle fuel s) := ⟨t, cycle_of_step_outOfFuel hrun ht⟩
    rw [hcycle] at hout
    rcases outOfFuel_bind hout with hserve | ⟨_, _, _, hstate⟩
    · exact h.lasts fuel (Nat.le_of_succ_le hfuel) hserve
    · exact absurd hstate (lasting_ok _ _)
  · rw [stepReads_of_service hrun hfetch hservice]
    exact Nat.succ_le_succ (h.words fuel)
  · obtain ⟨made, hmade, hcount⟩ : TakesAtMost (cycle fuel) s k :=
      ((h.keys fuel).bind_silent fun _ _ => rfl).of_eq (hcycle fuel) rfl
    exact ⟨made, (makes_step_iff hrun).2 hmade, hcount⟩

/-- Printing a stored string comes to an end, whatever memory holds and wherever R0 points, if the
console has at most `k` keys left to give: by then a round of memory has been read for each key and
one more, and no more than the keys have been taken. Going on for as many rounds of the search is
enough. The trap itself is one more word. A queue has at most the keys that wait in it, and a line
has at most those that are in its script. -/
theorem printing_ends_within :
    (∀ q : Queue, KeysWithin q.waiting.length q) ∧
      (∀ line : Line, KeysWithin line.keys.length line) ∧
      ∀ (s : System σ) (k : Nat) (service : Service), service.printsString = true →
        KeysWithin k s.channel.device →
          EndsWithin (serve · service) (service.reads · ·) s ((k + 1) * 65536) k ∧
            ∀ vector : BitVec 8, Service.ofVector? vector.toNat = some service →
              Executes s (.trap vector) →
                EndsWithin step stepReads s ((k + 1) * 65536 + 1) k := by
  refine ⟨queue_keysWithin, line_keysWithin, fun s k service hservice h => ?_⟩
  refine ⟨serve_ends_within hservice h, fun vector hvector hexecutes => ?_⟩
  have htrapped : EndsWithin (serve · service) (service.reads · ·) (trapped s)
      ((k + 1) * 65536) k := serve_ends_within hservice h
  exact htrapped.step hexecutes.1 hexecutes.2 hvector

/-- A machine whose memory holds nothing but traps that print, and no zero. -/
def endless (trap : Word) (keys : String) : System Queue :=
  ⟨{ memory := ⟨.replicate 0x10000 trap⟩, registers := .initial 0x3000 },
    { device := .ofInput keys }⟩

theorem printing_ends_within_endless :
    EndsWithin step stepReads (endless 0xf022 "A") (2 * 65536 + 1) 1 ∧
      EndsWithin step stepReads (endless 0xf024 "") (65536 + 1) 0 ∧
        Ends step (endless 0xf024 "") := by
  obtain ⟨hqueue, -, hprinting⟩ := printing_ends_within (σ := Queue)
  have hfetch (trap : Word) (keys : String) :
      Fetches (endless trap keys) (.decode trap) := by
    have hword : (endless trap keys).machine.memory.read 0x3000 = trap := by
      simp [endless, Memory.read]
    refine ⟨_, _, readWord_of_ne (show (0x3000 : Word) ≠ Machine.keyboardStatus by decide) _, ?_⟩
    rw [hword]
  have hwords := (hprinting (endless 0xf022 "A") 1 .putWords rfl (hqueue _)).2 0x22 rfl
    ⟨rfl, hfetch 0xf022 "A"⟩
  have hbytes := (hprinting (endless 0xf024 "") 0 .putBytes rfl (hqueue _)).2 0x24 rfl
    ⟨rfl, hfetch 0xf024 ""⟩
  exact ⟨hwords, hbytes, hbytes.ends⟩

end LC3
