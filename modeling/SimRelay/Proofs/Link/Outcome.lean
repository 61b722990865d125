import SimRelay.Link.Basic

/-!
# Proofs/Link/Outcome — what a step leaves behind

A step ends the call or leaves a state in which the call goes on, at once or later.  What holds of
that state (`Progress.Leaves`) passes from a part to the whole of which it is a step.
-/

namespace SimRelay

namespace Progress

variable {ε ε' σ τ α β : Type} {P : σ → Prop} {Q : τ → Prop}

/-- The state in which a call goes on, unless it has ended. -/
def state? : Progress ε σ α → Option σ
  | .waits s => some s
  | .goes s => some s
  | .ends _ => none

/-- The result of a call that has ended. -/
def result? : Progress ε σ α → Option (Except ε α)
  | .waits _ => none
  | .goes _ => none
  | .ends r => some r

/-- …when it has succeeded. -/
def reply? : Progress ε σ α → Option α
  | .ends (.ok a) => some a
  | _ => none

theorem result?_of_reply? {a : α} :
    ∀ {p : Progress ε σ α}, p.reply? = some a → p.result? = some (.ok a)
  | .ends (.ok _), rfl => rfl

/-- If the call goes on, it does so in a state of this kind. -/
def Leaves (P : σ → Prop) : Progress ε σ α → Prop
  | .waits s => P s
  | .goes s => P s
  | .ends _ => True

theorem Leaves.of_state? {s : σ} :
    ∀ {p : Progress ε σ α}, p.Leaves P → p.state? = some s → P s
  | .waits _, h, rfl => h
  | .goes _, h, rfl => h

theorem leaves_of_state? {s : σ} :
    ∀ {p : Progress ε σ α}, p.state? = some s → P s → p.Leaves P
  | .waits _, rfl, h => h
  | .goes _, rfl, h => h

theorem leaves_of_forall :
    ∀ {p : Progress ε σ α}, (∀ s, p.state? = some s → P s) → p.Leaves P
  | .waits s, h => h s rfl
  | .goes s, h => h s rfl
  | .ends _, _ => trivial

theorem result?_of_state? {s : σ} : ∀ {p : Progress ε σ α}, p.state? = some s → p.result? = none
  | .waits _, _ => rfl
  | .goes _, _ => rfl

theorem exists_result_of_state? :
    ∀ {p : Progress ε σ α}, p.state? = none → ∃ result, p.result? = some result
  | .ends result, _ => ⟨result, rfl⟩

theorem eq_ends_of_state? : ∀ {p : Progress ε σ α}, p.state? = none → ∃ result, p = .ends result
  | .ends result, _ => ⟨result, rfl⟩

theorem eq_ends_of_reply? {a : α} :
    ∀ {p : Progress ε σ α}, p.reply? = some a → p = .ends (.ok a)
  | .ends (.ok _), rfl => rfl

/-- A call that has ended without success has failed. -/
theorem exists_error_of_reply? :
    ∀ {p : Progress ε σ α}, p.state? = none → p.reply? = none → ∃ e, p = .ends (.error e)
  | .ends (.error e), _, _ => ⟨e, rfl⟩

/-- A part and what comes after it. -/
theorem Leaves.andThen {f : σ → τ} {next : α → Progress ε' τ β} {failed : ε → Progress ε' τ β} :
    ∀ {p : Progress ε σ α}, p.Leaves P → (∀ s, P s → Q (f s)) → (∀ a, (next a).Leaves Q) →
      (∀ e, (failed e).Leaves Q) → (p.andThen f next failed).Leaves Q
  | .waits s, h, hf, _, _ => hf s h
  | .goes s, h, hf, _, _ => hf s h
  | .ends (.ok a), _, _, hnext, _ => hnext a
  | .ends (.error e), _, _, _, hfailed => hfailed e

/-- A whole ends where its part has ended and what comes after it does. -/
theorem ends_of_andThen {f : σ → τ} {next : α → Progress ε' τ β} {failed : ε → Progress ε' τ β}
    {r : Except ε' β} : ∀ {p : Progress ε σ α}, p.andThen f next failed = .ends r →
      (∃ a, p = .ends (.ok a) ∧ next a = .ends r) ∨ ∃ e, p = .ends (.error e) ∧ failed e = .ends r
  | .ends (.ok a), h => .inl ⟨a, rfl, h⟩
  | .ends (.error e), h => .inr ⟨e, rfl, h⟩

theorem leaves_true : ∀ p : Progress ε σ α, p.Leaves fun _ => True
  | .waits _ => trivial
  | .goes _ => trivial
  | .ends _ => trivial

/-- A weaker kind of state. -/
theorem Leaves.mono {P' : σ → Prop} (himp : ∀ s, P s → P' s) :
    ∀ {p : Progress ε σ α}, p.Leaves P → p.Leaves P'
  | .waits s, h => himp s h
  | .goes s, h => himp s h
  | .ends _, _ => trivial

/-- …and one that is of two kinds. -/
theorem Leaves.and {P' : σ → Prop} :
    ∀ {p : Progress ε σ α}, p.Leaves P → p.Leaves P' → p.Leaves fun s => P s ∧ P' s
  | .waits _, h, h' => ⟨h, h'⟩
  | .goes _, h, h' => ⟨h, h'⟩
  | .ends _, _, _ => trivial

end Progress

end SimRelay
