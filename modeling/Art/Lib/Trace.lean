import Mathlib.Data.List.Basic

/-!
# Runs that log events and may return early

A loop nest that calls a visitor and, with a flag set, returns right after the first call, is
written in `Except (List α) (List α)`: the list holds the events so far, and `.error` is the
early return. `logged early es` is the run that has logged `es`: without `early` it runs on, with
it the run has returned at the first stopping event and holds the events up to it
(`cutAfter`).

`Logs early f xs` says that the piece of code `f` logs `xs` after what the run has logged: a
stopping event is `emit`ted (`logs_emit`), other events are appended (`logs_append`), and pieces
and loops of pieces compose (`Logs.bind`, `logs_foldlM`). Run from the start (`Logs.run`), it
ends with `result_logged`: all its events, or those up to the first stop.
-/

namespace Trace

variable {α : Type} (stop : α → Bool)

/-- The events up to and including the first that stops the run. -/
def cutAfter : List α → List α
  | [] => []
  | e :: es => if stop e then [e] else e :: cutAfter es

/-- The run that has logged `es`, and has returned at its first stopping event if `early`. -/
def logged (early : Bool) (es : List α) : Except (List α) (List α) :=
  if early && es.any stop then .error (cutAfter stop es) else .ok es

/-- Logging one event; with `early`, a stopping event returns. -/
def emit (early : Bool) (es : List α) (e : α) : Except (List α) (List α) :=
  if early && stop e then .error (es ++ [e]) else .ok (es ++ [e])

/-- What a run has logged, whether it returned early or ran to its end. -/
def result : Except (List α) (List α) → List α
  | .ok es => es
  | .error es => es

/-- `f` logs `xs` after the events so far, returning at a stopping event if `early`. -/
def Logs (early : Bool) (f : List α → Except (List α) (List α)) (xs : List α) : Prop :=
  ∀ es, (logged stop early es >>= f) = logged stop early (es ++ xs)

variable {stop}

section CutAfter

variable {es xs : List α}

theorem cutAfter_append_of_any (h : es.any stop = true) :
    cutAfter stop (es ++ xs) = cutAfter stop es := by
  induction es with
  | nil => simp at h
  | cons e es ih =>
    by_cases he : stop e = true
    · simp [cutAfter, he]
    · have h' : es.any stop = true := by simpa [he] using h
      simp [cutAfter, he, ih h']

theorem cutAfter_append_of_not_any (h : es.any stop = false) :
    cutAfter stop (es ++ xs) = es ++ cutAfter stop xs := by
  induction es with
  | nil => rfl
  | cons e es ih =>
    simp only [List.any_cons, Bool.or_eq_false_iff] at h
    simp [cutAfter, h.1, ih h.2]

theorem cutAfter_of_not_any (h : es.any stop = false) : cutAfter stop es = es := by
  simpa [cutAfter] using
    (cutAfter_append_of_not_any h : cutAfter stop (es ++ []) = es ++ cutAfter stop [])

theorem cutAfter_sublist (es : List α) : (cutAfter stop es).Sublist es := by
  induction es with
  | nil => exact List.Sublist.slnil
  | cons e es ih =>
    by_cases he : stop e = true
    · simp [cutAfter, he]
    · simpa [cutAfter, he] using ih.cons_cons e

/-- The early return keeps what the run found up to its first find. -/
theorem filterMap_cutAfter {β : Type} {f : α → Option β} (hf : ∀ e, stop e = (f e).isSome)
    (es : List α) : (cutAfter stop es).filterMap f = (es.filterMap f).take 1 := by
  induction es with
  | nil => rfl
  | cons e es ih =>
    cases hfe : f e with
    | none =>
      have he : stop e = false := by simp [hf, hfe]
      simp [cutAfter, he, hfe, ih]
    | some b =>
      have he : stop e = true := by simp [hf, hfe]
      simp [cutAfter, he, hfe]

end CutAfter

section Logged

variable {early : Bool} {es xs : List α}

theorem bind_logged (f : List α → Except (List α) (List α)) :
    (logged stop early es >>= f) = if early && es.any stop then logged stop early es else f es := by
  unfold logged
  split <;> rfl

theorem logged_append_of_stopped (h : (early && es.any stop) = true) :
    logged stop early (es ++ xs) = logged stop early es := by
  have h' : (early && (es ++ xs).any stop) = true := by
    simp only [Bool.and_eq_true, List.any_append, Bool.or_eq_true] at h ⊢
    exact ⟨h.1, .inl h.2⟩
  simp only [logged, h, h', if_true, cutAfter_append_of_any (Bool.and_eq_true _ _ ▸ h).2]

theorem result_logged : result (logged stop early es) = if early then cutAfter stop es else es := by
  cases early with
  | false => rfl
  | true =>
    cases h : es.any stop with
    | false => simp [logged, h, result, cutAfter_of_not_any h]
    | true => simp [logged, h, result]

end Logged

section Logs

variable {early : Bool}

theorem logs_emit (e : α) : Logs stop early (emit stop early · e) [e] := by
  intro es
  rw [bind_logged]
  split
  · next h => exact (logged_append_of_stopped h).symm
  · next h =>
    cases early with
    | false => rfl
    | true =>
      have hany : es.any stop = false := by simpa using h
      have hcut : cutAfter stop (es ++ [e]) = es ++ [e] := by
        rw [cutAfter_append_of_not_any hany]
        simp [cutAfter]
      simp only [emit, logged, List.any_append, hany, hcut, Bool.true_and, Bool.false_or,
        List.any_cons, List.any_nil, Bool.or_false]

/-- Appending events that do not stop the run. -/
theorem logs_append {xs : List α} (hxs : xs.any stop = false) :
    Logs stop early (fun es => pure (es ++ xs)) xs := by
  intro es
  rw [bind_logged]
  split
  · next h => exact (logged_append_of_stopped h).symm
  · next h =>
    simp only [Bool.not_eq_true] at h
    simp [logged, h, hxs, pure, Except.pure]

theorem logs_pure : Logs stop early pure [] := by
  intro es
  rw [bind_pure, List.append_nil]

theorem Logs.bind {f g : List α → Except (List α) (List α)} {xs ys : List α}
    (hf : Logs stop early f xs) (hg : Logs stop early g ys) :
    Logs stop early (fun es => f es >>= g) (xs ++ ys) := by
  intro es
  rw [← bind_assoc, hf es, hg, List.append_assoc]

/-- Run from the start, a piece that logs `xs` ends as the run that has logged `xs`. -/
theorem Logs.run {f : List α → Except (List α) (List α)} {xs : List α}
    (h : Logs stop early f xs) : f [] = logged stop early xs := by
  have h0 := h []
  rwa [show logged stop early [] = pure [] by cases early <;> rfl, pure_bind, List.nil_append] at h0

/-- A loop of pieces, each logging its own events. -/
theorem logs_foldlM {β : Type} {h : List α → β → Except (List α) (List α)} {t : β → List α}
    (hh : ∀ x, Logs stop early (h · x) (t x)) :
    ∀ l : List β, Logs stop early (fun es => l.foldlM h es) (l.flatMap t)
  | [] => logs_pure
  | x :: l => by
    simp only [List.foldlM_cons, List.flatMap_cons]
    exact (hh x).bind (logs_foldlM hh l)

end Logs

/-- A fold whose step binds the state is one monadic fold. -/
theorem foldl_bind_eq_foldlM {m : Type → Type} [Monad m] [LawfulMonad m] {σ β : Type}
    (h : σ → β → m σ) : ∀ (l : List β) (r : m σ),
      l.foldl (fun r x => r >>= (h · x)) r = r >>= (l.foldlM h ·)
  | [], r => by simp
  | x :: l, r => by
    simp only [List.foldl_cons, List.foldlM_cons, foldl_bind_eq_foldlM h l, bind_assoc]

end Trace
