/-!
# Requests in turn

A system is a type of states with a function that serves a request: it gives an answer and the
next state. Two systems with the same requests and answers are compared by a relation between
their states that holds on whatever is asked of both.

## Main definitions

* `serveAll`: the answers to requests in turn, and the state behind them
* `Simulates`: one system answers each request as the other

## Main results

* `Simulates.serveAll`: then it answers all requests as the other
-/

namespace PullQuery

variable {σ τ ρ α : Type}

/-- Serves requests in turn. -/
def serveAll (serve : σ → ρ → α × σ) : List ρ → σ → List α × σ
  | [], s => ([], s)
  | r :: rs, s =>
    let (a, s) := serve s r
    let (as, s) := serveAll serve rs s
    (a :: as, s)

/-- What each request preserves, all requests preserve. -/
theorem serveAll_induction {P : σ → Prop} {serve : σ → ρ → α × σ}
    (hserve : ∀ s, P s → ∀ r, P (serve s r).2) (rs : List ρ) {s : σ} (hs : P s) :
    P (serveAll serve rs s).2 := by
  induction rs generalizing s with
  | nil => exact hs
  | cons r rs ih => exact ih (hserve s hs r)

/-- What holds of each answer as long as requests preserve a property, holds of all answers. -/
theorem forall_mem_serveAll {P : σ → Prop} {Q : α → Prop} {serve : σ → ρ → α × σ}
    (hserve : ∀ s, P s → ∀ r, Q (serve s r).1 ∧ P (serve s r).2) (rs : List ρ) {s : σ} (hs : P s) :
    ∀ a ∈ (serveAll serve rs s).1, Q a := by
  induction rs generalizing s with
  | nil => simp [serveAll]
  | cons r rs ih =>
    obtain ⟨hanswer, hnext⟩ := hserve s hs r
    intro a ha
    rcases List.mem_cons.mp ha with rfl | ha
    · exact hanswer
    · exact ih hnext a ha

/-- Whether a system answers each request as another from related states, which stay related. -/
def Simulates (R : σ → τ → Prop) (serve : σ → ρ → α × σ) (serve' : τ → ρ → α × τ) : Prop :=
  ∀ ⦃s s'⦄, R s s' → ∀ r, (serve s r).1 = (serve' s' r).1 ∧ R (serve s r).2 (serve' s' r).2

theorem Simulates.serveAll {R : σ → τ → Prop} {serve : σ → ρ → α × σ} {serve' : τ → ρ → α × τ}
    (h : Simulates R serve serve') (rs : List ρ) {s : σ} {s' : τ} (hs : R s s') :
    (serveAll serve rs s).1 = (serveAll serve' rs s').1 ∧
      R (serveAll serve rs s).2 (serveAll serve' rs s').2 := by
  induction rs generalizing s s' with
  | nil => exact ⟨rfl, hs⟩
  | cons r rs ih =>
    obtain ⟨hanswer, hnext⟩ := h hs r
    obtain ⟨hanswers, hlast⟩ := ih hnext
    exact ⟨congr (congrArg List.cons hanswer) hanswers, hlast⟩

end PullQuery
