import IncludeDeps.Task
import Mathlib.Tactic.Lemma

/-!
# Computations that may fail

The runs of computations that carry a state along and keep it when they fail.  Each way of putting
computations together has one equation here, so later proofs need not open the monad.

* `Except.exists_of_bind`, `Except.eq_ok_of_mapError` and `Except.eq_ok_of_toOption` take apart what
  has succeeded without a state, so that no later proof goes through the ways in which it fails;
* `Computation.run_bind` runs two parts one after the other; `Computation.exists_of_run_bind` and
  `Computation.cases_of_run_bind` take apart what has succeeded or failed;
* `WorkspaceM.run_change`, `WorkspaceM.run_ask`, `WorkspaceM.run_mapError` and
  `WorkspaceM.run_onFailure` are about the operations on a workspace, and `RunM.run_onFiles` about
  those within a run;
* `createEach_run`, `StateStore.remove_run` and `StateStore.save_run` say what three computations
  that are used everywhere come to, with the workspace that each failure leaves.

What was changed before a failure is not taken back by any of these.
-/

namespace IncludeDeps

lemma Except.isSome_toOption_iff {ε α : Type} {x : Except ε α} :
    x.toOption.isSome ↔ ∃ a, x = .ok a := by
  cases x with
  | ok a => exact ⟨fun _ => ⟨a, rfl⟩, fun _ => rfl⟩
  | error e => exact ⟨nofun, nofun⟩

lemma Except.eq_ok_of_toOption {ε α : Type} {x : Except ε α} {a : α} (h : x.toOption = some a) :
    x = .ok a := by
  cases x with
  | ok b =>
    cases h
    rfl
  | error e => cases h

lemma Except.exists_of_map_toOption {ε α β : Type} {x : Except ε α} {f : α → β} {b : β}
    (h : x.toOption.map f = some b) : ∃ a, x = .ok a ∧ f a = b := by
  cases x with
  | ok a => exact ⟨a, rfl, Option.some.inj h⟩
  | error e => cases h

/-- What succeeds in two parts succeeds in each of them. -/
lemma Except.exists_of_bind {ε α β : Type} {x : Except ε α} {f : α → Except ε β} {b : β}
    (h : x >>= f = .ok b) : ∃ a, x = .ok a ∧ f a = .ok b := by
  cases x with
  | error e => cases h
  | ok a => exact ⟨a, rfl, h⟩

lemma Except.mapError_ok {ε ε' α : Type} (f : ε → ε') (a : α) :
    (Except.ok a : Except ε α).mapError f = .ok a :=
  rfl

lemma Except.mapError_error {ε ε' α : Type} (f : ε → ε') (e : ε) :
    (Except.error e : Except ε α).mapError f = .error (f e) :=
  rfl

lemma Except.eq_ok_of_mapError {ε ε' α : Type} {x : Except ε α} {f : ε → ε'} {a : α}
    (h : x.mapError f = .ok a) : x = .ok a := by
  cases x with
  | error e => cases h
  | ok b =>
    cases h
    rfl

namespace Computation

variable {ε δ σ α β : Type} {s t : σ}

lemma not_ok_of_error {e : ε} {a : α} : ((.error e, s) : Except ε α × σ) ≠ (.ok a, t) :=
  fun h => nomatch congrArg Prod.fst h

lemma run_bind (x : ExceptT ε (StateM σ) α) (f : α → ExceptT ε (StateM σ) β) (s : σ) :
    (x >>= f).run.run s =
      match x.run.run s with
      | (.ok a, t) => (f a).run.run t
      | (.error e, t) => (.error e, t) := by
  show (ExceptT.bindCont f (x s).1) (x s).2 = _
  rcases h : x s with ⟨r, t⟩
  cases r with
  | ok a =>
    have hrun : x.run.run s = (.ok a, t) := h
    rw [hrun]
    rfl
  | error e =>
    have hrun : x.run.run s = (.error e, t) := h
    rw [hrun]
    rfl

lemma run_bind_of_ok {x : ExceptT ε (StateM σ) α} {a : α} (h : x.run.run s = (.ok a, t))
    (f : α → ExceptT ε (StateM σ) β) : (x >>= f).run.run s = (f a).run.run t := by
  rw [run_bind, h]

/-- The two parts of a computation that succeeds. -/
lemma exists_of_run_bind {x : ExceptT ε (StateM σ) α} {f : α → ExceptT ε (StateM σ) β} {b : β}
    (h : (x >>= f).run.run s = (.ok b, t)) :
    ∃ a s', x.run.run s = (.ok a, s') ∧ (f a).run.run s' = (.ok b, t) := by
  rw [run_bind] at h
  rcases hx : x.run.run s with ⟨y, s'⟩
  rw [hx] at h
  cases y with
  | error e => exact absurd h not_ok_of_error
  | ok a => exact ⟨a, s', rfl, h⟩

/-- A computation fails in its first part or in its second. -/
lemma cases_of_run_bind {x : ExceptT ε (StateM σ) α} {f : α → ExceptT ε (StateM σ) β} {e : ε}
    (h : (x >>= f).run.run s = (.error e, t)) :
    x.run.run s = (.error e, t) ∨
      ∃ a s', x.run.run s = (.ok a, s') ∧ (f a).run.run s' = (.error e, t) := by
  rw [run_bind] at h
  rcases hx : x.run.run s with ⟨y, s'⟩
  rw [hx] at h
  cases y with
  | error e' =>
    cases h
    exact .inl rfl
  | ok a => exact .inr ⟨a, s', rfl, h⟩

lemma run_get (s : σ) : (get : ExceptT ε (StateM σ) σ).run.run s = (.ok s, s) := rfl

lemma run_get_bind (f : σ → ExceptT ε (StateM σ) β) (s : σ) :
    (get >>= f).run.run s = (f s).run.run s :=
  run_bind_of_ok (run_get s) f

lemma state_eq_of_error {e e' : ε}
    (h : ((.error e, s) : Except ε α × σ) = (.error e', t)) : s = t :=
  congrArg Prod.snd h

lemma not_error_of_ok {e : ε} {a : α} : ((.ok a, s) : Except ε α × σ) ≠ (.error e, t) :=
  fun h => nomatch congrArg Prod.fst h

lemma exists_of_toBool {x : Except ε α × σ} (h : x.1.toBool) : ∃ a t, x = (.ok a, t) := by
  obtain ⟨r, t⟩ := x
  cases r with
  | ok a => exact ⟨a, t, rfl⟩
  | error e => cases h

/-- A run that gives this result ends somewhere. -/
lemma exists_of_fst_eq {x : Except ε α × σ} {a : Except ε α} {P : σ → Prop}
    (h : x.1 = a ∧ P x.2) : ∃ t, x = (a, t) ∧ P t :=
  ⟨x.2, Prod.ext h.1 rfl, h.2⟩

lemma eq_of_ok {a b : α} (h : ((.ok a, s) : Except ε α × σ) = (.ok b, t)) : a = b ∧ s = t :=
  ⟨Except.ok.inj (congrArg Prod.fst h), congrArg Prod.snd h⟩

/-- A computation that looks at the outcome of another one. -/
lemma run_mk_bind {γ : Type} (x : StateM σ γ) (f : γ → StateM σ (Except ε α)) (s : σ) :
    (ExceptT.mk (x >>= f)).run.run s = (f (x.run s).1).run (x.run s).2 :=
  rfl

end Computation

namespace WorkspaceM

variable {ε δ α : Type} {w : Workspace}

lemma run_change (f : Workspace → Except Fault Workspace) (w : Workspace) :
    (change f).run.run w =
      match f w with
      | .ok w' => (.ok (), w')
      | .error e => (.error e, w) := by
  unfold change
  rw [Computation.run_get_bind]
  cases f w with
  | ok w' => rfl
  | error e => rfl

lemma run_ask (f : Workspace → Except ε α) (w : Workspace) : (ask f).run.run w = (f w, w) := by
  unfold ask
  rw [Computation.run_get_bind]
  cases f w with
  | ok a => rfl
  | error e => rfl

lemma run_mapError (f : δ → ε) (x : WorkspaceM δ α) (w : Workspace) :
    (mapError f x).run.run w = ((x.run.run w).1.mapError f, (x.run.run w).2) := by
  unfold mapError
  rw [Computation.run_mk_bind]
  cases (x.run.run w).1 with
  | ok a => rfl
  | error e => rfl

lemma run_onFailure (x : WorkspaceM ε α) (handler : Workspace → Workspace) (w : Workspace) :
    (onFailure x handler).run.run w =
      match x.run.run w with
      | (.ok a, w') => (.ok a, w')
      | (.error e, w') => (.error e, handler w') := by
  unfold onFailure
  rw [Computation.run_mk_bind]
  rcases x.run.run w with ⟨r, w'⟩
  cases r with
  | ok a => rfl
  | error e => rfl

end WorkspaceM

namespace RunM

variable {ε δ α : Type}

lemma run_onFiles (tell : δ → ε) (x : WorkspaceM δ α) (r : Run) :
    (onFiles tell x).run.run r =
      ((x.run.run r.files).1.mapError tell, { r with files := (x.run.run r.files).2 }) :=
  rfl

end RunM

/-! ## Making directories -/

/-- The steps by which a directory is made. -/
lemma createEach_run (p : Path) (outer : List Path) (w : Workspace) :
    (createEach (p :: outer)).run.run w =
      match w.makeDirectory p with
      | .ok w' => (.ok (), w')
      | .error .notFound =>
        match (createEach outer).run.run w with
        | (.error e, w₁) => (.error e, w₁)
        | (.ok (), w₁) =>
          match w₁.makeDirectory p with
          | .ok w₂ => (.ok (), w₂)
          | .error e => (if w₁.isDirectory p then .ok () else .error e, w₁)
      | .error e => (if w.isDirectory p then .ok () else .error e, w) := by
  -- two of the branches end in the same question: is there a directory by now, whoever has made it
  have hkeep : ∀ (w : Workspace) (e : Fault),
      (if w.isDirectory p then pure () else throw e : WorkspaceM Fault Unit).run.run w =
        (if w.isDirectory p then .ok () else .error e, w) := by
    intro w e
    split
    · rfl
    · rfl
  rw [createEach, Computation.run_get_bind]
  cases w.makeDirectory p with
  | ok w' => rfl
  | error e =>
    cases e with
    | notFound =>
      simp only [Computation.run_bind, Computation.run_get]
      rcases (createEach outer).run.run w with ⟨r, w₁⟩
      cases r with
      | error e => rfl
      | ok u =>
        simp only
        cases w₁.makeDirectory p with
        | ok w₂ => rfl
        | error e => exact hkeep w₁ e
    | _ => exact hkeep w _

/-! ## Stored states -/

/-- What becomes of a file that is removed. -/
lemma StateStore.remove_run (s : StateStore) (key : String) (w : Workspace) :
    (s.remove key).run.run w =
      match w.unlink (s.path key) with
      | .ok w' => (.ok true, w')
      | .error .notFound => (.ok false, w)
      | .error e => (.error (.io (s.path key) e), w) := by
  unfold remove
  rw [Computation.run_get_bind]
  cases w.unlink (s.path key) with
  | ok w' => rfl
  | error e =>
    cases e with
    | _ => rfl

/-- The steps by which a state is stored. -/
lemma StateStore.save_run (s : StateStore) (key : String) (state : TaskState) (w : Workspace) :
    (s.save key state).run.run w =
      match (createDirectories s.folder).run.run w with
      | (.error e, w₁) => (.error (.io s.folder e), w₁)
      | (.ok (), w₁) =>
        match state.fileContent s.tool with
        | .error e => (.error (.encoding e), w₁)
        | .ok content =>
          match w₁.write (s.scratch w key) content with
          | .error e => (.error (.io (s.scratch w key) e), w₁)
          | .ok w₂ =>
            match w₂.rename (s.scratch w key) (s.path key) with
            | .error e =>
              (.error (.io (s.path key) e), (w₂.unlink (s.scratch w key)).toOption.getD w₂)
            | .ok w₃ => (.ok (), w₃) := by
  unfold save
  simp only [Computation.run_bind, Computation.run_get, WorkspaceM.run_mapError,
    WorkspaceM.run_ask, WorkspaceM.run_change, WorkspaceM.run_onFailure]
  rcases (createDirectories s.folder).run.run w with ⟨r, w₁⟩
  cases r with
  | error e => rfl
  | ok u =>
    simp only [Except.mapError_ok]
    cases state.fileContent s.tool with
    | error e => simp only [Except.mapError_error]
    | ok content =>
      simp only [Except.mapError_ok]
      cases w₁.write (s.scratch w key) content with
      | error e => simp only [Except.mapError_error]
      | ok w₂ =>
        simp only [Except.mapError_ok]
        cases w₂.rename (s.scratch w key) (s.path key) with
        | error e => simp only [Except.mapError_error]
        | ok w₃ => simp only [Except.mapError_ok]

end IncludeDeps
