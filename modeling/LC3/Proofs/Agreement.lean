import LC3.Proofs.Computation

/-!
# Runs that agree

Two computations are compared from states that a relation `R` pairs up. They agree if they come to
the same answer or stop for the same reason, in states that `R` pairs up again. There are two ways
out: the first computation may run out of fuel, and it may get into a state that is `Lost`. A lost
state stays lost, so that an agreement can be carried through a run and be used for as much of it as
was not lost.

With equality for `R` this says that more fuel changes nothing. With a relation between consoles it
compares a program on two consoles. And where nothing is related, `Lost` is an invariant that the
first computation keeps.
-/

namespace LC3

/-! ## Outcomes -/

section Outcomes

variable {ρ ρ' α β : Type}

/-- The state that an outcome leaves behind. -/
def leftBy : EStateM.Result Stop ρ α → ρ
  | .ok _ s => s
  | .error _ s => s

/-- Why a computation was not complete, if it was not. -/
def stopOf : EStateM.Result Stop ρ α → Option Stop
  | .ok _ _ => none
  | .error e _ => some e

theorem eq_ok_of_stopOf {r : EStateM.Result Stop ρ Unit} (h : stopOf r = none) :
    r = .ok () (leftBy r) := by
  cases r <;> cases h
  rfl

theorem eq_error_of_stopOf {r : EStateM.Result Stop ρ α} {e : Stop} (h : stopOf r = some e) :
    r = .error e (leftBy r) := by
  cases r <;> cases h
  rfl

/-- The fuel did not last. -/
def OutOfFuel (r : EStateM.Result Stop ρ α) : Prop := ∃ s, r = .error .outOfFuel s

/-- The same answer or the same stop, in related states. -/
inductive Alike (R : ρ → ρ' → Prop) :
    EStateM.Result Stop ρ α → EStateM.Result Stop ρ' α → Prop where
  | ok (a : α) {s : ρ} {t : ρ'} (h : R s t) : Alike R (.ok a s) (.ok a t)
  | error (e : Stop) {s : ρ} {t : ρ'} (h : R s t) : Alike R (.error e s) (.error e t)

instance (r : EStateM.Result Stop ρ α) : Decidable (OutOfFuel r) :=
  match r with
  | .error .outOfFuel s => .isTrue ⟨s, rfl⟩
  | .error (.fault _) _ => .isFalse fun ⟨_, h⟩ => nomatch h
  | .error .signal _ => .isFalse fun ⟨_, h⟩ => nomatch h
  | .ok _ _ => .isFalse fun ⟨_, h⟩ => nomatch h

/-- No signal stops `x`. -/
def Quiet (x : EStateM Stop ρ α) : Prop := ∀ s u, x s ≠ .error .signal u

/-- From related states `x` comes to the same as `y`, unless it gets lost or its fuel does not
last. -/
structure Agree (Lost : ρ → Prop) (R : ρ → ρ' → Prop) (x : EStateM Stop ρ α)
    (y : EStateM Stop ρ' α) : Prop where
  quiet : Quiet x
  lost : ∀ s, Lost s → Lost (leftBy (x s))
  alike : ∀ s t, R s t → Lost (leftBy (x s)) ∨ OutOfFuel (x s) ∨ Alike R (x s) (y t)

namespace Alike

variable {ρ'' : Type} {R : ρ → ρ' → Prop} {R' : ρ' → ρ'' → Prop} {r : EStateM.Result Stop ρ α}
  {r' : EStateM.Result Stop ρ' α} {r'' : EStateM.Result Stop ρ'' α}

theorem symm {R' : ρ' → ρ → Prop} (hR : ∀ s t, R s t → R' t s) (h : Alike R r r') :
    Alike R' r' r := by
  cases h with
  | ok a h => exact .ok a (hR _ _ h)
  | error e h => exact .error e (hR _ _ h)

theorem mono {S : ρ → ρ' → Prop} (hR : ∀ s t, R s t → S s t) (h : Alike R r r') :
    Alike S r r' := by
  cases h with
  | ok a h => exact .ok a (hR _ _ h)
  | error e h => exact .error e (hR _ _ h)

theorem trans {S : ρ → ρ'' → Prop} (hR : ∀ s t u, R s t → R' t u → S s u) (h : Alike R r r')
    (h' : Alike R' r' r'') : Alike S r r'' := by
  cases h with
  | ok a h =>
    cases h' with
    | ok _ h' => exact .ok a (hR _ _ _ h h')
  | error e h =>
    cases h' with
    | error _ h' => exact .error e (hR _ _ _ h h')

theorem related (h : Alike R r r') : R (leftBy r) (leftBy r') := by
  cases h with
  | ok a h => exact h
  | error e h => exact h

theorem outOfFuel_iff (h : Alike R r r') : OutOfFuel r ↔ OutOfFuel r' := by
  unfold OutOfFuel
  cases h with
  | ok a h => simp
  | error e h => simp

end Alike

variable {Lost : ρ → Prop} {R : ρ → ρ' → Prop}

theorem Quiet.bind {x : EStateM Stop ρ α} {f : α → EStateM Stop ρ β} (hx : Quiet x)
    (hf : ∀ a, Quiet (f a)) : Quiet (x >>= f) := by
  intro s u
  rcases h : x s with ⟨a, v⟩ | ⟨e, v⟩
  · rw [bind_of_ok h]
    exact hf a v u
  · rw [bind_of_error h]
    rintro ⟨⟩
    exact hx s u h

theorem Quiet.catchFault {x : EStateM Stop ρ α} {f : Fault → EStateM Stop ρ α} (hx : Quiet x)
    (hf : ∀ e, Quiet (f e)) : Quiet (Stop.catchFault x f) := by
  intro s u
  rcases h : x s with ⟨a, v⟩ | ⟨e | _ | _, v⟩
  · rw [Stop.catchFault_of_ok f h]
    exact nofun
  · rw [Stop.catchFault_of_fault f h]
    exact hf e v u
  · exact absurd h (hx s v)
  · rw [Stop.catchFault_of_outOfFuel f h]
    exact nofun

theorem lasting_ok (a : α) (s : ρ) : ¬OutOfFuel (.ok a s) := nofun

theorem OutOfFuel.bind {x : EStateM Stop ρ α} {s : ρ} (h : OutOfFuel (x s))
    (f : α → EStateM Stop ρ β) : OutOfFuel ((x >>= f) s) := by
  obtain ⟨t, ht⟩ := h
  exact ⟨t, bind_of_error ht⟩

theorem outOfFuel_bind {x : EStateM Stop ρ α} {f : α → EStateM Stop ρ β} {s : ρ}
    (h : OutOfFuel ((x >>= f) s)) :
    OutOfFuel (x s) ∨ ∃ a t, x s = .ok a t ∧ OutOfFuel (f a t) := by
  obtain ⟨u, hu⟩ := h
  rcases bind_eq_error.1 hu with hx | ⟨a, t, ht, hf⟩
  · exact .inl ⟨u, hx⟩
  · exact .inr ⟨a, t, ht, u, hf⟩

theorem leftBy_bind {x : EStateM Stop ρ α} {f : α → EStateM Stop ρ β}
    (hf : ∀ a s, Lost s → Lost (leftBy (f a s))) {s : ρ} (hx : Lost (leftBy (x s))) :
    Lost (leftBy ((x >>= f) s)) := by
  rcases h : x s with ⟨a, u⟩ | ⟨e, u⟩
  · rw [bind_of_ok h]
    rw [h] at hx
    exact hf a u hx
  · rw [bind_of_error h]
    rwa [h] at hx

theorem leftBy_catchFault {x : EStateM Stop ρ α} {f : Fault → EStateM Stop ρ α}
    (hf : ∀ e s, Lost s → Lost (leftBy (f e s))) {s : ρ} (hx : Lost (leftBy (x s))) :
    Lost (leftBy (Stop.catchFault x f s)) := by
  unfold Stop.catchFault
  rcases h : x s with ⟨a, u⟩ | ⟨_ | _ | _, u⟩ <;> rw [h] at hx
  · exact hx
  · exact hf _ u hx
  · exact hx
  · exact hx

namespace Agree

/-- Computations that only look at the state agree if they see the same. -/
theorem of_ok {x : EStateM Stop ρ α} {y : EStateM Stop ρ' α} (look : ρ → α)
    (hx : ∀ s, x s = .ok (look s) s) (hy : ∀ s t, R s t → y t = .ok (look s) t) :
    Agree Lost R x y := by
  refine ⟨?_, ?_, ?_⟩
  · intro s u
    rw [hx s]
    exact nofun
  · intro s hs
    rw [hx s]
    exact hs
  · intro s t hst
    rw [hx s, hy s t hst]
    exact .inr (.inr (.ok _ hst))

theorem pure (a : α) : Agree Lost R (pure a) (pure a) :=
  of_ok (fun _ => a) (fun _ => rfl) (fun _ _ _ => rfl)

theorem fault (f : Fault) :
    Agree Lost R (throw (.fault f) : EStateM Stop ρ α) (throw (.fault f) : EStateM Stop ρ' α) :=
  ⟨fun _ _ => nofun, fun _ hs => hs, fun _ _ hst => .inr (.inr (.error _ hst))⟩

theorem outOfFuel (y : EStateM Stop ρ' α) :
    Agree Lost R (MonadExcept.throw Stop.outOfFuel : EStateM Stop ρ α) y :=
  ⟨fun _ _ => nofun, fun _ hs => hs, fun s _ _ => .inr (.inl ⟨s, rfl⟩)⟩

theorem bind {x : EStateM Stop ρ α} {y : EStateM Stop ρ' α} {f : α → EStateM Stop ρ β}
    {g : α → EStateM Stop ρ' β} (hx : Agree Lost R x y) (hf : ∀ a, Agree Lost R (f a) (g a)) :
    Agree Lost R (x >>= f) (y >>= g) := by
  refine ⟨hx.quiet.bind fun a => (hf a).quiet, ?_, ?_⟩
  · intro s hs
    exact leftBy_bind (fun a => (hf a).lost) (hx.lost s hs)
  intro s t hst
  rcases hx.alike s t hst with h | ⟨u, h⟩ | h
  · exact .inl (leftBy_bind (fun a => (hf a).lost) h)
  · exact .inr (.inl ⟨u, bind_of_error h⟩)
  · generalize hxs : x s = r at h
    generalize hyt : y t = r' at h
    cases h with
    | ok a huv =>
      rw [bind_of_ok hxs, bind_of_ok hyt]
      exact (hf a).alike _ _ huv
    | error e huv =>
      rw [bind_of_error hxs, bind_of_error hyt]
      exact .inr (.inr (.error e huv))

theorem ite {c : Prop} [Decidable c] {x x' : EStateM Stop ρ α} {y y' : EStateM Stop ρ' α}
    (h : Agree Lost R x y) (h' : Agree Lost R x' y') :
    Agree Lost R (if c then x else x') (if c then y else y') := by
  split
  · exact h
  · exact h'

theorem catchFault {x : EStateM Stop ρ α} {y : EStateM Stop ρ' α}
    {f : Fault → EStateM Stop ρ α} {g : Fault → EStateM Stop ρ' α} (hx : Agree Lost R x y)
    (hf : ∀ e, Agree Lost R (f e) (g e)) :
    Agree Lost R (Stop.catchFault x f) (Stop.catchFault y g) := by
  refine ⟨hx.quiet.catchFault fun e => (hf e).quiet, ?_, ?_⟩
  · intro s hs
    exact leftBy_catchFault (fun e => (hf e).lost) (hx.lost s hs)
  intro s t hst
  rcases hx.alike s t hst with h | ⟨u, h⟩ | h
  · exact .inl (leftBy_catchFault (fun e => (hf e).lost) h)
  · exact .inr (.inl ⟨u, Stop.catchFault_of_outOfFuel f h⟩)
  · unfold Stop.catchFault
    generalize x s = r at h
    generalize y t = r' at h
    cases h with
    | ok a huv => exact .inr (.inr (.ok a huv))
    | error e huv =>
      cases e with
      | fault e => exact (hf e).alike _ _ huv
      | signal => exact .inr (.inr (.error _ huv))
      | outOfFuel => exact .inr (.inr (.error _ huv))

/-- Something done on the left alone is not noticed if it keeps the relation. -/
theorem bind_left {x : EStateM Stop ρ Unit} {f : Unit → EStateM Stop ρ α}
    {y : EStateM Stop ρ' α} (hquiet : Quiet x)
    (hlost : ∀ s, Lost s → Lost (leftBy (x s)))
    (hx : ∀ s t, R s t → ∃ u, x s = .ok () u ∧ R u t) (hf : Agree Lost R (f ()) y) :
    Agree Lost R (x >>= f) y := by
  refine ⟨hquiet.bind fun _ => hf.quiet, ?_, ?_⟩
  · intro s hs
    exact leftBy_bind (fun _ => hf.lost) (hlost s hs)
  intro s t hst
  obtain ⟨u, hu, hut⟩ := hx s t hst
  rw [bind_of_ok hu]
  exact hf.alike u t hut

/-- Something done on the right alone is not noticed if it keeps the relation. -/
theorem bind_right {x : EStateM Stop ρ α} {y : EStateM Stop ρ' Unit}
    {g : Unit → EStateM Stop ρ' α} (hy : ∀ s t, R s t → ∃ u, y t = .ok () u ∧ R s u)
    (hg : Agree Lost R x (g ())) : Agree Lost R x (y >>= g) := by
  refine ⟨hg.quiet, hg.lost, ?_⟩
  intro s t hst
  obtain ⟨u, hu, hsu⟩ := hy s t hst
  rw [bind_of_ok hu]
  exact hg.alike s u hsu

end Agree

end Outcomes

end LC3
