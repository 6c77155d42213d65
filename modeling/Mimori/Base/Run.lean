/-
Runs of a state machine whose steps are functions of a state and an action: the run itself with
its history, the invariant rule, the rule for invariants that look back, and the evaluation of a
list of actions to a run.
-/
import Mathlib.Data.List.Basic
import Mathlib.Logic.Relation

variable {σ α : Type}

/-- A state machine; `step s a` is `none` when `a` is not possible in `s`. -/
structure Machine (σ α : Type) where
  init : σ → Prop
  step : σ → α → Option σ

namespace Machine

/-- A run all of whose steps meet `ok`, with the states it left and the actions it took there, the
latest first. -/
inductive Run (S : Machine σ α) (ok : σ → α → Prop) : List (σ × α) → σ → Prop
  | start {s : σ} : S.init s → Run S ok [] s
  | next {h : List (σ × α)} {s s' : σ} {a : α} :
      Run S ok h s → ok s a → S.step s a = some s' → Run S ok ((s, a) :: h) s'

variable {S : Machine σ α} {ok : σ → α → Prop}

/-! ## Rules -/

/-- What holds at the start and is kept by every step that meets `ok` holds at the end of a run. -/
theorem Run.invariant {I : σ → Prop} (hinit : ∀ s, S.init s → I s)
    (hstep : ∀ s a s', I s → ok s a → S.step s a = some s' → I s')
    {h : List (σ × α)} {s : σ} (hr : S.Run ok h s) : I s := by
  induction hr with
  | start h0 => exact hinit _ h0
  | next _ hok hs ih => exact hstep _ _ _ ih hok hs

/-- The same for a property of the state and its history. -/
theorem Run.history {I : List (σ × α) → σ → Prop} (hinit : ∀ s, S.init s → I [] s)
    (hstep : ∀ h s a s', S.Run ok h s → I h s → ok s a → S.step s a = some s' → I ((s, a) :: h) s')
    {h : List (σ × α)} {s : σ} (hr : S.Run ok h s) : I h s := by
  induction hr with
  | start h0 => exact hinit _ h0
  | next hr hok hs ih => exact hstep _ _ _ _ hr ih hok hs

/-- Every state of the history ends a run of its own, and its action met `ok`. -/
theorem Run.past {h : List (σ × α)} {s : σ} (hr : S.Run ok h s) {s₀ : σ} {a₀ : α} (hm : (s₀, a₀) ∈ h) :
    (∃ h₀, S.Run ok h₀ s₀) ∧ ok s₀ a₀ ∧ ∃ s₁, S.step s₀ a₀ = some s₁ := by
  induction hr with
  | start => cases hm
  | next hr hok hs ih =>
    rcases List.mem_cons.1 hm with h | h
    · cases h; exact ⟨⟨_, hr⟩, hok, _, hs⟩
    · exact ih h

/-- What a step establishes and the steps after it keep holds at the end of the run. -/
theorem Run.since {I : σ → Prop} {h₁ : List (σ × α)} {x : σ} {a : α}
    (hfirst : ∀ s, S.Run ok h₁ x → ok x a → S.step x a = some s → I s) :
    ∀ {h₂ : List (σ × α)} {s : σ}, S.Run ok (h₂ ++ (x, a) :: h₁) s →
      (∀ h s b s', S.Run ok h s → (s, b) ∈ h₂ → I s → ok s b → S.step s b = some s' → I s') → I s
  | [], _, .next hr hok hs, _ => hfirst _ hr hok hs
  | (_, _) :: _, _, .next hr hok hs, hstep =>
    hstep _ _ _ _ hr List.mem_cons_self
      (Run.since hfirst hr fun h s b s' hr hm => hstep h s b s' hr (List.mem_cons_of_mem _ hm)) hok hs

/-- A step that leaves the state as it is can be left out of a run. -/
theorem Run.skip {h₁ : List (σ × α)} {x : σ} {a : α} (hx : S.step x a = some x) :
    ∀ {h₂ : List (σ × α)} {s : σ}, S.Run ok (h₂ ++ (x, a) :: h₁) s → S.Run ok (h₂ ++ h₁) s
  | [], _, .next hr _ hs => by
    rw [hx] at hs
    cases hs
    exact hr
  | (_, _) :: _, _, .next hr hok hs => .next (Run.skip hx hr) hok hs

/-! ## Continuations -/

/-- `s'` is reached from `s` by steps that meet `ok`. -/
def Leads (S : Machine σ α) (ok : σ → α → Prop) : σ → σ → Prop :=
  Relation.ReflTransGen fun s s' => ∃ a, ok s a ∧ S.step s a = some s'

theorem Leads.refl (s : σ) : S.Leads ok s s := Relation.ReflTransGen.refl

theorem Leads.trans {s s' s'' : σ} (h : S.Leads ok s s') (h' : S.Leads ok s' s'') : S.Leads ok s s'' :=
  Relation.ReflTransGen.trans h h'

theorem Leads.single {s s' : σ} {a : α} (hok : ok s a) (hs : S.step s a = some s') : S.Leads ok s s' :=
  Relation.ReflTransGen.single ⟨a, hok, hs⟩

/-- What every step that meets `ok` keeps is kept on the way. -/
theorem Leads.invariant {I : σ → Prop} (hstep : ∀ s a s', I s → ok s a → S.step s a = some s' → I s')
    {s s' : σ} (hl : S.Leads ok s s') (hi : I s) : I s' := by
  induction hl with
  | refl => exact hi
  | tail _ hs ih =>
    obtain ⟨a, hok, hs⟩ := hs
    exact hstep _ _ _ ih hok hs

/-- A run goes on. -/
theorem Run.leads {h : List (σ × α)} {s s' : σ} (hr : S.Run ok h s) (hl : S.Leads ok s s') :
    ∃ h', S.Run ok (h' ++ h) s' := by
  induction hl with
  | refl => exact ⟨[], hr⟩
  | tail _ hs ih =>
    obtain ⟨h', hr'⟩ := ih
    obtain ⟨a, hok, hs⟩ := hs
    exact ⟨(_, a) :: h', hr'.next hok hs⟩

/-! ## Evaluation -/

/-- Taking the actions of a list one after the other, checking `ok` before each. -/
def exec (S : Machine σ α) (ok : σ → α → Prop) [∀ s a, Decidable (ok s a)] :
    List (σ × α) → σ → List α → Option (List (σ × α) × σ)
  | h, s, [] => some (h, s)
  | h, s, a :: as =>
    if ok s a then
      match S.step s a with
      | some s' => exec S ok ((s, a) :: h) s' as
      | none => none
    else none

theorem Run.exec [∀ s a, Decidable (ok s a)] :
    ∀ {as : List α} {h h' : List (σ × α)} {s s' : σ}, S.Run ok h s →
      S.exec ok h s as = some (h', s') → S.Run ok h' s'
  | [], h, h', s, s', hr, he => by
    simp only [Machine.exec, Option.some.injEq, Prod.mk.injEq] at he
    rw [← he.1, ← he.2]; exact hr
  | a :: as, h, h', s, s', hr, he => by
    unfold Machine.exec at he
    split at he
    · rename_i hok
      split at he
      · rename_i s₁ hs; exact Run.exec (hr.next hok hs) he
      · cases he
    · cases he

/-- A property found at the end of an evaluation is a property of the end of a run. -/
theorem exists_run (ok : σ → α → Prop) [∀ s a, Decidable (ok s a)] (P : List (σ × α) → σ → Prop)
    [∀ h s, Decidable (P h s)] {s₀ : σ} (h0 : S.init s₀) (as : List α)
    (he : (S.exec ok [] s₀ as).any (fun x => decide (P x.1 x.2)) = true) :
    ∃ h s, S.Run ok h s ∧ P h s := by
  obtain ⟨⟨h, s⟩, hx, hp⟩ := (Option.any_eq_true _ _).1 he
  exact ⟨h, s, (Run.start h0).exec hx, of_decide_eq_true hp⟩

end Machine
