import LC3.Fault

/-!
# Stops

A computation on a machine or a session can end before it is complete, for three reasons that call
for three different answers. A fault is the business of whoever set the computation going: it can be
caught, and the state in which it arose is the state that the handler finds. A signal comes from
outside and takes control away from everything on its way. Fuel that did not last is no ending at
all: the computation would have gone on, and nothing catches it.
-/

namespace LC3

/-- Why a computation stopped before it was complete. -/
inductive Stop where
  | fault (f : Fault)
  | signal
  | outOfFuel
  deriving DecidableEq, Repr

namespace Stop

variable {ρ α : Type}

/-- Lets `handle` answer a fault of `compute`. -/
def catchFault (compute : EStateM Stop ρ α) (handle : Fault → EStateM Stop ρ α) :
    EStateM Stop ρ α := fun s =>
  match compute s with
  | .error (.fault f) s => handle f s
  | result => result

/-- Lets `handle` answer a signal during `compute`. -/
def catchSignal (compute handle : EStateM Stop ρ α) : EStateM Stop ρ α := fun s =>
  match compute s with
  | .error .signal s => handle s
  | result => result

variable {compute : EStateM Stop ρ α} {s t : ρ}

theorem catchFault_of_ok {a : α} (handle : Fault → EStateM Stop ρ α) (h : compute s = .ok a t) :
    catchFault compute handle s = .ok a t := by
  simp [catchFault, h]

theorem catchFault_of_fault {f : Fault} (handle : Fault → EStateM Stop ρ α)
    (h : compute s = .error (.fault f) t) : catchFault compute handle s = handle f t := by
  simp [catchFault, h]

theorem catchFault_of_signal (handle : Fault → EStateM Stop ρ α)
    (h : compute s = .error .signal t) : catchFault compute handle s = .error .signal t := by
  simp [catchFault, h]

theorem catchFault_of_outOfFuel (handle : Fault → EStateM Stop ρ α)
    (h : compute s = .error .outOfFuel t) : catchFault compute handle s = .error .outOfFuel t := by
  simp [catchFault, h]

theorem catchSignal_of_ok {a : α} (handle : EStateM Stop ρ α) (h : compute s = .ok a t) :
    catchSignal compute handle s = .ok a t := by
  simp [catchSignal, h]

theorem catchSignal_of_fault {f : Fault} (handle : EStateM Stop ρ α)
    (h : compute s = .error (.fault f) t) :
    catchSignal compute handle s = .error (.fault f) t := by
  simp [catchSignal, h]

theorem catchSignal_of_signal (handle : EStateM Stop ρ α) (h : compute s = .error .signal t) :
    catchSignal compute handle s = handle t := by
  simp [catchSignal, h]

theorem catchSignal_of_outOfFuel (handle : EStateM Stop ρ α)
    (h : compute s = .error .outOfFuel t) :
    catchSignal compute handle s = .error .outOfFuel t := by
  simp [catchSignal, h]

end Stop

end LC3
