import LC3.Proofs.Journals
import LC3.Proofs.Slices
import LC3.Proofs.Strings

/-!
# Unread input

A queue answers from its front, and what is sent goes to its end. So as long as every read and every
poll finds a key, what waits behind that key has no influence: with more input the program does the
same, and the additional input is left over. This holds of input that is queued at the start and of
input that is sent between two steps.
-/

namespace LC3

open MachineM

/-! ## More input -/

def Channel.sent (more : String) (c : Channel Queue) : Channel Queue :=
  { c with device := c.device.send more }

/-- The same system, with more input behind the input that waits. -/
def System.sent (more : String) (s : System Queue) : System Queue :=
  { s with channel := s.channel.sent more }

/-- Whether the console was asked for a key and had none. -/
def Event.isVain : Event → Bool
  | .call (.read (.error _)) => true
  | .call (.poll (.ok none)) => true
  | _ => false

/-- How often the console was asked for a key and had none. -/
def Journal.vain (j : Journal) : Nat := j.count Event.isVain

/-- Between `s` and what it comes to, every read and every poll found a key. -/
def AlwaysFed {α : Type} (s : System Queue) (r : EStateM.Result Stop (System Queue) α) : Prop :=
  (leftBy r).channel.journal.vain = s.channel.journal.vain

instance {α : Type} (s : System Queue) (r : EStateM.Result Stop (System Queue) α) :
    Decidable (AlwaysFed s r) := inferInstanceAs (Decidable (_ = _))

/-! ## The simulation -/

/-- The right channel has more input, and at least `k` calls were in vain so far. -/
structure HasMore (more : String) (k : Nat) (c d : Channel Queue) : Prop where
  vain : k ≤ c.journal.vain
  sent : d = c.sent more

variable {more : String} {k : Nat}

/-- An operation with more input does the same and leaves more input, unless it asks for a key in
vain. -/
theorem hasMore_exchanges {α : Type} {operation : Queue → Reply Queue α}
    {call : Except Fault α → Call}
    (h : ∀ q, Event.isVain (.call (call (operation q).answer)) = true ∨
      operation (q.send more) =
        { operation q with device := (operation q).device.send more }) :
    Exchanges (fun c => k < c.journal.vain) (HasMore more k) operation operation call := by
  refine ⟨fun c hlost => Nat.lt_of_lt_of_le hlost (count_le_after ..), ?_⟩
  rintro c _ ⟨hk, rfl⟩
  rcases h c.device with hvain | hmore
  · left
    rw [Journal.vain, count_after_of_call (fun _ => rfl) c hvain]
    exact Nat.lt_succ_of_le hk
  · right
    have hreply : operation (c.sent more).device =
        { operation c.device with device := (operation c.device).device.send more } := hmore
    rw [hreply]
    exact ⟨rfl, Nat.le_trans hk (count_le_after ..), rfl⟩

theorem hasMore_simulation (more : String) (k : Nat) :
    ChannelSimulation (fun c => k < c.journal.vain) (HasMore more k) where
  read := hasMore_exchanges fun
    | ⟨[], _, _⟩ => .inl rfl
    | ⟨_ :: _, _, _⟩ => .inr rfl
  poll := hasMore_exchanges fun
    | ⟨[], _, _⟩ => .inl rfl
    | ⟨_ :: _, _, _⟩ => .inr rfl
  write _ := hasMore_exchanges fun _ => .inr rfl
  flush := hasMore_exchanges fun _ => .inr rfl
  pauseLost c h := by
    rw [Journal.vain, count_push]
    exact h
  pause := by
    rintro c _ ⟨hk, rfl⟩
    refine ⟨?_, rfl⟩
    rw [Journal.vain, count_push]
    exact hk

/-! ## Runs -/

/-- `x` does what its primitives do, so that it agrees with itself wherever they do. -/
def Parametric (x : Nat → MachineM Queue Unit) : Prop :=
  ∀ ⦃Lost : System Queue → Prop⦄ ⦃R : System Queue → System Queue → Prop⦄, Simulation Lost R →
    ∀ fuel, Agree Lost R (x fuel) (x fuel)

theorem steps_parametric (n : Nat) : Parametric (steps · n) :=
  fun _ _ h fuel => h.steps (Nat.le_refl fuel) n

theorem run_parametric : Parametric run := fun _ _ h fuel => h.run (Nat.le_refl fuel)

variable {x : Nat → MachineM Queue Unit} {n : Nat} {s t : System Queue}
  {r : EStateM.Result Stop (System Queue) Unit}

theorem Parametric.vain_le (hx : Parametric x) (h : EndsIn x s r) :
    s.channel.journal.vain ≤ (leftBy r).channel.journal.vain := by
  obtain ⟨⟨fuel, rfl⟩, -⟩ := h
  have hcounted := counted_simulation (σ := Queue) Event.isVain s.channel.journal.vain
  exact (hx hcounted.simulation fuel).lost s (Nat.le_refl _)

/-- What always found a key did so in its later part. -/
theorem AlwaysFed.rest (hfed : AlwaysFed s r) (hx : Parametric x)
    (hfirst : EndsIn (steps · k) s (.ok () t)) (hrest : EndsIn x t r) : AlwaysFed t r := by
  have hbefore : s.channel.journal.vain ≤ t.channel.journal.vain :=
    (steps_parametric k).vain_le hfirst
  have hafter : t.channel.journal.vain ≤ (leftBy r).channel.journal.vain := hx.vain_le hrest
  have hall : (leftBy r).channel.journal.vain = s.channel.journal.vain := hfed
  exact Nat.le_antisymm (hall ▸ hbefore) hafter

theorem Parametric.sent (hx : Parametric x) (more : String) (h : EndsIn x s r)
    (hfed : AlwaysFed s r) :
    ∃ r', EndsIn x (s.sent more) r' ∧ Alike (fun u v => v = u.sent more) r r' := by
  have hsim := (hasMore_simulation more s.channel.journal.vain).simulation
  have hstart : OnSameMachine (HasMore more s.channel.journal.vain) s (s.sent more) :=
    ⟨rfl, Nat.le_refl _, rfl⟩
  have hnot : ¬s.channel.journal.vain < (leftBy r).channel.journal.vain :=
    Nat.not_lt_of_le (Nat.le_of_eq hfed)
  obtain ⟨r', hr', halike⟩ := h.agree_of_not_lost (fun fuel => ⟨fuel, hx hsim fuel⟩) hstart hnot
  refine ⟨r', hr', halike.mono ?_⟩
  rintro ⟨m, c⟩ ⟨_, _⟩ ⟨rfl, -, rfl⟩
  rfl

/-- Any number of steps on a queue come to an end. What they come to, and what a run comes to, is
the same with more input, as long as every read and every poll found a key: the same machine, the
same stop, the same output and the same calls, and the additional input waits behind what else is
left. It makes no difference whether that input is there from the start or sent after `k` steps. -/
theorem unread_input_unobserved (more : String) (s : System Queue) :
    (∀ n, Ends (steps · n) s) ∧
      (∀ n r, EndsIn (steps · n) s r → AlwaysFed s r →
        ∃ r', EndsIn (steps · n) (s.sent more) r' ∧ Alike (fun u v => v = u.sent more) r r') ∧
      (∀ r, EndsIn run s r → AlwaysFed s r →
        ∃ r', EndsIn run (s.sent more) r' ∧ Alike (fun u v => v = u.sent more) r r') ∧
      ∀ k t, EndsIn (steps · k) s (.ok () t) →
        (∀ n r, EndsIn (steps · (k + n)) s r → AlwaysFed s r →
          ∃ r', EndsIn (steps · n) (t.sent more) r' ∧ Alike (fun u v => v = u.sent more) r r') ∧
        ∀ r, EndsIn run s r → AlwaysFed s r →
          ∃ r', EndsIn run (t.sent more) r' ∧ Alike (fun u v => v = u.sent more) r r' := by
  refine ⟨fun n => ?_, fun n _ => (steps_parametric n).sent more, fun _ => run_parametric.sent more,
    fun k t ht => ⟨fun n r hr hfed => ?_, fun r hr hfed => ?_⟩⟩
  · have hwithin : Queue.Within s.channel.device.waiting.length s.channel.device := Nat.le_refl _
    have hlast := steps_lasting queue_rations (queue_bounded _) (Nat.le_refl _) n hwithin
    exact ⟨_, endsIn_of_lasting hlast⟩
  · have hrest : EndsIn (steps · n) t r := hr.steps_rest ht
    exact (steps_parametric n).sent more hrest (hfed.rest (steps_parametric n) ht hrest)
  · have hrest : EndsIn run t r := hr.run_rest ht
    exact run_parametric.sent more hrest (hfed.rest run_parametric ht hrest)

/-- The key `B` is sent after the key `A` was read, and left over. -/
theorem unread_input_unobserved_echo :
    ∃ r t r', EndsIn run echo r ∧ EndsIn (steps · 1) echo (.ok () t) ∧
      EndsIn run (t.sent "B") r' ∧ Alike (fun u v => v = u.sent "B") r r' := by
  have hlast : ¬OutOfFuel (run 16 echo) := by decide +kernel
  have hfed : AlwaysFed echo (run 16 echo) := by decide +kernel
  have hread : (steps 1 1 echo matches .ok _ _) = true := by decide +kernel
  obtain ⟨t, ht⟩ : ∃ t, steps 1 1 echo = .ok () t := by
    rcases h : steps 1 1 echo with ⟨_, t⟩ | ⟨e, t⟩
    · exact ⟨t, rfl⟩
    · rw [h] at hread
      cases hread
  have hfirst : EndsIn (steps · 1) echo (.ok () t) := ⟨⟨1, ht⟩, nofun⟩
  obtain ⟨-, -, -, hlater⟩ := unread_input_unobserved "B" echo
  obtain ⟨r', hr', halike⟩ := (hlater 1 t hfirst).2 _ (endsIn_of_lasting hlast) hfed
  exact ⟨_, t, r', endsIn_of_lasting hlast, hfirst, hr', halike⟩

end LC3
