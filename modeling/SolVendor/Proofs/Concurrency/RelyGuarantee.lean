import Mathlib.Logic.Relation
import SolVendor.Concurrency.Process
/-!
# Concurrency — relying and guaranteeing

A process relies on what the others may do to the shared state between two
of its steps, and it guarantees what each of its own steps does: the two
are its contract, with what holds as long as the process is not done.
`Safe` says that a process keeps to a contract from a state on, and that
its result has a property when it is done. Whatever the others do in the
meantime leaves that as it is (`Safe.of_rely`), and it composes along binds
(`Safe.bind`, `Safe.andThen`).

If each process relies on no more than what the others guarantee, then
under every schedule all processes stay safe, and the shared state has
changed by guaranteed steps only (`Pool.IsSafe.run`). If a process cannot be
done with some result before it has taken a certain step (`MustDo`), then
that step is among those of the run (`Pool.IsSafe.exists_step`).
-/

namespace SolVendor

/-- What a process relies on and what it guarantees. Nothing happening may be relied on, and so may one
thing after another. -/
structure Contract (σ : Type) where
  rely : σ → σ → Prop
  guar : σ → σ → Prop
  /-- What holds until the process is done. -/
  live : σ → Prop
  refl : ∀ s, rely s s
  trans : ∀ {s t u}, rely s t → rely t u → rely s u

variable {σ α β : Type} {c : Contract σ} {s : σ}

namespace Process

/-- From the state on, each step of the process is as guaranteed and its result has the property, as long
as the others do only what is relied on. -/
def Safe (c : Contract σ) (post : α → σ → Prop) : Process σ α → σ → Prop
  | done a, s => ∀ t, c.rely s t → post a t
  | step ready effect next, s => ∀ t, c.rely s t → c.live t ∧
      (ready t = true → c.guar t (effect t) ∧ Safe c post (next t) (effect t))

variable {post post' : α → σ → Prop} {p : Process σ α}

/-- **What the others do leaves a process safe.** -/
theorem Safe.of_rely {t : σ} (h : p.Safe c post s) (hs : c.rely s t) : p.Safe c post t := by
  cases p with
  | done a => exact fun u hu => h u (c.trans hs hu)
  | step ready effect next => exact fun u hu => h u (c.trans hs hu)

theorem Safe.mono (h : p.Safe c post s) (hpost : ∀ a t, post a t → post' a t) :
    p.Safe c post' s := by
  induction p generalizing s with
  | done a => exact fun t ht => hpost a t (h t ht)
  | step ready effect next ih =>
    intro t ht
    obtain ⟨hlive, hstep⟩ := h t ht
    refine ⟨hlive, fun hready => ?_⟩
    obtain ⟨hguar, hnext⟩ := hstep hready
    exact ⟨hguar, ih t hnext⟩

/-- **One process after another** is safe if the second is where the first one ends. -/
theorem Safe.bind {f : α → Process σ β} {post : β → σ → Prop}
    (h : p.Safe c (fun a t => (f a).Safe c post t) s) : (p >>= f).Safe c post s := by
  induction p generalizing s with
  | done a => exact h s (c.refl s)
  | step ready effect next ih =>
    intro t ht
    obtain ⟨hlive, hstep⟩ := h t ht
    refine ⟨hlive, fun hready => ?_⟩
    obtain ⟨hguar, hnext⟩ := hstep hready
    exact ⟨hguar, ih t hnext⟩

theorem safe_atomic {f : σ → α × σ} (h : ∀ t, c.rely s t → c.live t ∧ c.guar t (f t).2 ∧
    ∀ u, c.rely (f t).2 u → post (f t).1 u) : (atomic f).Safe c post s := by
  intro t ht
  obtain ⟨hlive, hstep⟩ := h t ht
  exact ⟨hlive, fun _ => hstep⟩

/-- Whatever the process finds on its way, it takes a step that does this before it is done with such a
result. -/
def MustDo (does : σ → σ → Prop) (such : α → Prop) : Process σ α → Prop
  | done a => ¬ such a
  | step _ effect next => ∀ s, does s (effect s) ∨ MustDo does such (next s)

section

variable {does : σ → σ → Prop} {such : α → Prop} {such' : β → Prop}

/-- There is no such result. -/
theorem mustDo_false (p : Process σ α) : p.MustDo does fun _ => False := by
  induction p with
  | done a => exact id
  | step ready effect next ih => exact fun s => .inr (ih s)

/-- The step is one of the first process, or of the second one. -/
theorem MustDo.bind {f : α → Process σ β} (h : p.MustDo does such)
    (hf : ∀ a, ¬ such a → (f a).MustDo does such') : (p >>= f).MustDo does such' := by
  induction p with
  | done a => exact hf a h
  | step ready effect next ih => exact fun s => (h s).imp_right (ih s)

/-- The step is one of the second process. -/
theorem MustDo.after {f : α → Process σ β} (hf : ∀ a, (f a).MustDo does such') :
    (p >>= f).MustDo does such' :=
  (mustDo_false p).bind fun a _ => hf a

theorem mustDo_atomic {f : σ → α × σ} (h : ∀ s, such (f s).1 → does s (f s).2) :
    (atomic f).MustDo does such := by
  intro s
  by_cases hs : such (f s).1
  · exact .inl (h s hs)
  · exact .inr hs

end

end Process

namespace Task

variable {post : Except Failure β → σ → Prop} {t : Task σ α}

/-- The process that a task is. -/
abbrev Safe (c : Contract σ) (post : Except Failure α → σ → Prop) (t : Task σ α) (s : σ) : Prop :=
  Process.Safe c post (ExceptT.run t) s

/-- **One task after another**: the second begins where the first has succeeded. -/
theorem Safe.andThen {f : α → Task σ β}
    (h : t.Safe c (fun r u => match r with
      | .ok a => (f a).Safe c post u
      | .error e => ∀ v, c.rely u v → post (.error e) v) s) : (t >>= f).Safe c post s := by
  refine Process.Safe.bind (Process.Safe.mono h fun r u hr => ?_)
  cases r with
  | ok a => exact hr
  | error e => exact hr

/-- An attempt is safe if the task is, whatever that comes to. -/
theorem Safe.attempt {post : Except Failure (Except Failure α) → σ → Prop}
    (h : t.Safe c (fun r u => ∀ v, c.rely u v → post (.ok r) v) s) : (Task.attempt t).Safe c post s :=
  Process.Safe.bind h

/-- Saying what was being done is safe if the task is. -/
theorem Safe.during {activity : Activity} {post : Except Failure α → σ → Prop}
    (h : t.Safe c (fun r u => ∀ v, c.rely u v →
      post (r.mapError fun cause => .during activity cause) v) s) :
    (Task.during activity t).Safe c post s :=
  Process.Safe.bind h

/-- Every failure says what was being done. -/
theorem mustDo_during {activity : Activity} {does : σ → σ → Prop} {such : Except Failure α → Prop}
    (hok : ∀ a, ¬ such (.ok a)) (herror : ∀ cause, ¬ such (.error (.during activity cause))) :
    Process.MustDo does such (Task.during activity t) :=
  Process.MustDo.after fun r => match r with
    | .ok a => hok a
    | .error cause => herror cause

end Task

namespace Pool

variable {contracts : Nat → Contract σ} {post : Nat → α → σ → Prop} {pool pool' : Pool σ α}

/-- All processes are safe, each under its own contract and with its own property. -/
def IsSafe (contracts : Nat → Contract σ) (post : Nat → α → σ → Prop) (pool : Pool σ α) : Prop :=
  ∀ (i : Nat) (p : Process σ α), pool.processes[i]? = some p →
    p.Safe (contracts i) (post i) pool.shared

/-- What one of the processes guarantees. -/
def Guaranteed (contracts : Nat → Contract σ) (s t : σ) : Prop :=
  ∃ i, (contracts i).guar s t

theorem step_cases {i : Nat} (h : pool.step i = some pool') :
    ∃ ready effect next, pool.processes[i]? = some (.step ready effect next) ∧
      ready pool.shared = true ∧
      pool' = ⟨effect pool.shared, pool.processes.set i (next pool.shared)⟩ := by
  unfold step at h
  split at h
  · rename_i ready effect next hp
    split at h
    · rename_i hready
      exact ⟨ready, effect, next, hp, hready, (Option.some.inj h).symm⟩
    · cases h
  · cases h

/-- **A step of one process leaves all of them safe**, if each relies on no more than the others
guarantee. -/
theorem IsSafe.step {i : Nat} (hs : pool.IsSafe contracts post) (h : pool.step i = some pool')
    (hfit : ∀ {i j s t}, i ≠ j → (contracts i).guar s t → (contracts j).rely s t) :
    pool'.IsSafe contracts post ∧ (contracts i).guar pool.shared pool'.shared := by
  obtain ⟨ready, effect, next, hp, hready, rfl⟩ := step_cases h
  obtain ⟨hguar, hnext⟩ := (hs i _ hp pool.shared ((contracts i).refl _)).2 hready
  refine ⟨fun j q hq => ?_, hguar⟩
  rw [List.getElem?_set] at hq
  split at hq
  · rename_i hij
    subst hij
    split at hq
    · obtain rfl := Option.some.inj hq
      exact hnext
    · cases hq
  · rename_i hij
    exact (hs j q hq).of_rely (hfit hij hguar)

/-- **Under every schedule all processes stay safe**, and the shared state changes by guaranteed steps. -/
theorem IsSafe.run {schedule : List Nat} (hs : pool.IsSafe contracts post)
    (h : pool.run schedule = some pool')
    (hfit : ∀ {i j s t}, i ≠ j → (contracts i).guar s t → (contracts j).rely s t) :
    pool'.IsSafe contracts post ∧
      Relation.ReflTransGen (Guaranteed contracts) pool.shared pool'.shared := by
  induction schedule generalizing pool with
  | nil =>
    obtain rfl := Option.some.inj h
    exact ⟨hs, .refl⟩
  | cons i schedule ih =>
    obtain ⟨next, hstep, hrest⟩ := Option.bind_eq_some_iff.1 h
    obtain ⟨hnext, hguar⟩ := hs.step hstep hfit
    obtain ⟨hend, hchain⟩ := ih hnext hrest
    exact ⟨hend, .head ⟨i, hguar⟩ hchain⟩

/-- **A process that takes no step** finds done only what it relies on. -/
theorem IsSafe.rely_of_notMem {schedule : List Nat} {i : Nat} (hs : pool.IsSafe contracts post)
    (h : pool.run schedule = some pool')
    (hfit : ∀ {i j s t}, i ≠ j → (contracts i).guar s t → (contracts j).rely s t)
    (hi : i ∉ schedule) : (contracts i).rely pool.shared pool'.shared := by
  induction schedule generalizing pool with
  | nil =>
    obtain rfl := Option.some.inj h
    exact (contracts i).refl _
  | cons j schedule ih =>
    obtain ⟨next, hstep, hrest⟩ := Option.bind_eq_some_iff.1 h
    obtain ⟨hnext, hguar⟩ := hs.step hstep hfit
    have hne : j ≠ i := fun heq => hi (heq ▸ List.mem_cons_self)
    exact (contracts i).trans (hfit hne hguar) (ih hnext hrest fun hin => hi (List.mem_cons_of_mem j hin))

/-- **What a process must do before it is done is done in the run**: there is a step that does it, with guaranteed
steps before and after. -/
theorem IsSafe.exists_step {schedule : List Nat} {i : Nat} {p : Process σ α} {a : α} {does : σ → σ → Prop}
    {such : α → Prop} (hs : pool.IsSafe contracts post) (h : pool.run schedule = some pool')
    (hfit : ∀ {i j s t}, i ≠ j → (contracts i).guar s t → (contracts j).rely s t)
    (hp : pool.processes[i]? = some p) (hmust : p.MustDo does such) (ha : pool'.result? i = some a)
    (hsuch : such a) : ∃ s t, Relation.ReflTransGen (Guaranteed contracts) pool.shared s ∧ does s t ∧
      Relation.ReflTransGen (Guaranteed contracts) t pool'.shared := by
  induction schedule generalizing pool p with
  | nil =>
    obtain rfl := Option.some.inj h
    unfold result? at ha
    rw [hp] at ha
    cases p with
    | done b =>
      obtain rfl := Option.some.inj ha
      exact absurd hsuch hmust
    | step ready effect next => cases ha
  | cons j schedule ih =>
    obtain ⟨mid, hstep, hrest⟩ := Option.bind_eq_some_iff.1 h
    obtain ⟨hnext, hguar⟩ := hs.step hstep hfit
    obtain ⟨ready, effect, next, hj, hready, rfl⟩ := step_cases hstep
    by_cases hij : j = i
    · subst hij
      obtain rfl := Option.some.inj (hp.symm.trans hj)
      rcases hmust pool.shared with hdoes | hmust
      · exact ⟨_, _, .refl, hdoes, (hnext.run hrest hfit).2⟩
      · obtain ⟨s, t, hbefore, hdoes, hafter⟩ := ih hnext hrest
          (List.getElem?_set_self (List.getElem?_eq_some_iff.1 hj).1) hmust
        exact ⟨s, t, .head ⟨j, hguar⟩ hbefore, hdoes, hafter⟩
    · obtain ⟨s, t, hbefore, hdoes, hafter⟩ := ih hnext hrest
        ((List.getElem?_set_ne hij).trans hp) hmust
      exact ⟨s, t, .head ⟨j, hguar⟩ hbefore, hdoes, hafter⟩

/-- **What no process comes to is no result**, under any schedule. -/
theorem not_of_result {schedule : List Nat} {such : α → Prop} {i : Nat} {a : α}
    (hnever : ∀ p ∈ pool.processes, p.MustDo (fun _ _ => False) such)
    (h : pool.run schedule = some pool') (ha : pool'.result? i = some a) : ¬ such a := by
  induction schedule generalizing pool with
  | nil =>
    obtain rfl := Option.some.inj h
    obtain ⟨p, hp, hdone⟩ := Option.bind_eq_some_iff.1 ha
    have hp := hnever p (List.mem_of_getElem? hp)
    cases p with
    | done b =>
      obtain rfl := Option.some.inj hdone
      exact hp
    | step ready effect next => cases hdone
  | cons j schedule ih =>
    obtain ⟨mid, hstep, hrest⟩ := Option.bind_eq_some_iff.1 h
    obtain ⟨ready, effect, next, hj, -, rfl⟩ := step_cases hstep
    refine ih (fun p hp => ?_) hrest
    rcases List.mem_or_eq_of_mem_set hp with hp | rfl
    · exact hnever p hp
    · exact (hnever _ (List.mem_of_getElem? hj) pool.shared).resolve_left id

/-- A process that is done has a result with its property. -/
theorem IsSafe.result {i : Nat} {a : α} (hs : pool.IsSafe contracts post)
    (h : pool.result? i = some a) : post i a pool.shared := by
  obtain ⟨p, hp, ha⟩ := Option.bind_eq_some_iff.1 h
  have hsafe := hs i p hp
  cases p with
  | done a' =>
    obtain rfl := Option.some.inj ha
    exact hsafe _ ((contracts i).refl _)
  | step ready effect next => cases ha

/-- A process is done, or what holds until then holds. -/
theorem IsSafe.result_or_live {i : Nat} (hs : pool.IsSafe contracts post)
    (hi : i < pool.processes.length) :
    (∃ a, pool.result? i = some a) ∨ (contracts i).live pool.shared := by
  have hp : pool.processes[i]? = some pool.processes[i] := List.getElem?_eq_getElem hi
  have hsafe := hs i _ hp
  unfold result?
  rw [hp]
  cases hat : pool.processes[i] with
  | done a => exact .inl ⟨a, rfl⟩
  | step ready effect next =>
    rw [hat] at hsafe
    exact .inr (hsafe pool.shared ((contracts i).refl _)).1

/-- The processes remain as many as they are. -/
theorem length_of_run {schedule : List Nat} (h : pool.run schedule = some pool') :
    pool'.processes.length = pool.processes.length := by
  induction schedule generalizing pool with
  | nil =>
    obtain rfl := Option.some.inj h
    rfl
  | cons i schedule ih =>
    obtain ⟨next, hstep, hrest⟩ := Option.bind_eq_some_iff.1 h
    obtain ⟨ready, effect, succ, -, -, rfl⟩ := step_cases hstep
    rw [ih hrest, List.length_set]

end Pool

end SolVendor
