import Mathlib.Data.List.Induction
import SolVendor.Project.Config
/-!
# Project — settling again after a failure

A configuration that has not settled may be settled again, later and with
another text for the dependency. A text that is no dependency leaves the
configuration as it is. If it is one, but there is no project, the root that
was given is lost (`settle_error_cases`), and the next attempt looks at the
working directory. What a sequence of attempts leaves therefore depends on
the last one with a dependency (`after_cases`, `settle_failures`).
-/

namespace SolVendor

/-- An attempt to settle a configuration: the host at the time, and the text for the dependency. -/
structure Attempt where
  host : Host
  dependency : String

/-- The text of the attempt is a dependency. -/
def Attempt.IsReadable (a : Attempt) : Prop :=
  ∃ d, Dependency.parse a.dependency = .ok d

namespace Config

variable {c c' : Config} {h : Host} {e : Failure} {a : Attempt} {attempts : List Attempt}

/-- What the attempt comes to, and the configuration that it leaves. -/
def attempt (c : Config) (a : Attempt) : Except Failure Unit × Config :=
  { c with dependency := a.dependency }.settle a.host

/-- The configuration that is left by some attempts, one after the other. -/
def after (c : Config) : List Attempt → Config
  | [] => c
  | a :: attempts => (c.attempt a).2.after attempts

/-! ## One attempt -/

/-- **What is checked is the root in the configuration**, or the working directory if there is none. -/
theorem fst_settle (c : Config) (h : Host) : (c.settle h).1 =
    (Dependency.parse c.dependency).bind fun _ => (Project.findRoot h c.projectRoot).map fun _ => () := by
  unfold settle
  cases Dependency.parse c.dependency with
  | error e => rfl
  | ok d =>
    cases Project.findRoot h c.projectRoot with
    | error e => rfl
    | ok root => rfl

/-- **A failure because of the text leaves the configuration alone, one because of the project takes the root
away.** -/
theorem settle_error_cases (hs : c.settle h = (.error e, c')) :
    (Dependency.parse c.dependency = .error e ∧ c' = c) ∨
      ∃ d, Dependency.parse c.dependency = .ok d ∧ Project.findRoot h c.projectRoot = .error e ∧
        c' = { c with projectRoot := none } := by
  unfold settle at hs
  cases hd : Dependency.parse c.dependency with
  | error e' =>
    rw [hd] at hs
    obtain ⟨he, rfl⟩ := Prod.mk.inj hs
    obtain rfl := Except.error.inj he
    exact .inl ⟨rfl, rfl⟩
  | ok d =>
    rw [hd] at hs
    cases hroot : Project.findRoot h c.projectRoot with
    | error e' =>
      simp only [hroot] at hs
      obtain ⟨he, rfl⟩ := Prod.mk.inj hs
      obtain rfl := Except.error.inj he
      exact .inr ⟨d, rfl, rfl, rfl⟩
    | ok root =>
      simp only [hroot] at hs
      cases (Prod.mk.inj hs).1

/-- An attempt whose text is no dependency changes nothing but the text. -/
theorem snd_attempt_of_not_isReadable (ha : ¬ a.IsReadable) :
    (c.attempt a).2 = { c with dependency := a.dependency } := by
  unfold attempt settle
  cases hd : Dependency.parse a.dependency with
  | error e => rfl
  | ok d => exact absurd ⟨d, hd⟩ ha

/-- An attempt with a dependency leaves a root just if it has found one. -/
theorem projectRoot_attempt (ha : a.IsReadable) :
    (∃ root, Project.findRoot a.host c.projectRoot = .ok root ∧ (c.attempt a).1 = .ok () ∧
        (c.attempt a).2.projectRoot = some root) ∨
      ∃ e, Project.findRoot a.host c.projectRoot = .error e ∧ (c.attempt a).1 = .error e ∧
        (c.attempt a).2.projectRoot = none := by
  obtain ⟨d, hd⟩ := ha
  unfold attempt settle
  simp only [hd]
  cases Project.findRoot a.host c.projectRoot with
  | error e => exact .inr ⟨e, rfl, rfl, rfl⟩
  | ok root => exact .inl ⟨root, rfl, rfl, rfl⟩

/-- What no attempt changes. -/
theorem snd_attempt (c : Config) (a : Attempt) : (c.attempt a).2 =
    { c with
      dependency := a.dependency
      projectRoot := (c.attempt a).2.projectRoot
      dep := (c.attempt a).2.dep } := by
  unfold attempt settle
  cases hd : Dependency.parse a.dependency with
  | error e => rfl
  | ok d =>
    cases Project.findRoot a.host c.projectRoot with
    | error e => rfl
    | ok root => rfl

/-! ## Attempts one after the other -/

theorem after_append (c : Config) (before attempts : List Attempt) :
    c.after (before ++ attempts) = (c.after before).after attempts := by
  induction before generalizing c with
  | nil => rfl
  | cons a before ih => exact ih _

/-- Attempts whose texts are no dependencies change nothing but the text. -/
theorem after_of_not_isReadable (ha : ∀ a ∈ attempts, ¬ a.IsReadable) :
    c.after attempts = { c with dependency := (c.after attempts).dependency } := by
  induction attempts generalizing c with
  | nil => rfl
  | cons a attempts ih =>
    obtain ⟨hfirst, hrest⟩ := List.forall_mem_cons.1 ha
    unfold after
    rw [ih hrest, snd_attempt_of_not_isReadable hfirst]

/-- **The root after some attempts**: the one from before if none of the texts is a dependency, else what the
last attempt with a dependency has left. -/
theorem after_cases (c : Config) (attempts : List Attempt) :
    ((∀ a ∈ attempts, ¬ a.IsReadable) ∧ (c.after attempts).projectRoot = c.projectRoot) ∨
      ∃ before a later, attempts = before ++ a :: later ∧ a.IsReadable ∧
        (∀ b ∈ later, ¬ b.IsReadable) ∧
        (c.after attempts).projectRoot = ((c.after before).attempt a).2.projectRoot := by
  induction attempts using List.reverseRecOn with
  | nil => exact .inl ⟨fun a ha => absurd ha List.not_mem_nil, rfl⟩
  | append_singleton attempts a ih =>
    have hlast : c.after (attempts ++ [a]) = ((c.after attempts).attempt a).2 := after_append c attempts [a]
    by_cases ha : a.IsReadable
    · refine .inr ⟨attempts, a, [], rfl, ha, fun b hb => absurd hb List.not_mem_nil, ?_⟩
      rw [hlast]
    · have hsame : (c.after (attempts ++ [a])).projectRoot = (c.after attempts).projectRoot := by
        rw [hlast, snd_attempt_of_not_isReadable ha]
      rcases ih with ⟨hall, hroot⟩ | ⟨before, b, later, rfl, hb, hlater, hroot⟩
      · exact .inl ⟨List.forall_mem_append.2 ⟨hall, List.forall_mem_singleton.2 ha⟩, hsame.trans hroot⟩
      · refine .inr ⟨before, b, later ++ [a], ?_, hb,
          List.forall_mem_append.2 ⟨hlater, List.forall_mem_singleton.2 ha⟩, hsame.trans hroot⟩
        rw [List.append_assoc, List.cons_append]

/-- What no attempts change. -/
theorem after_eq (c : Config) (attempts : List Attempt) : c.after attempts =
    { c with
      dependency := (c.after attempts).dependency
      projectRoot := (c.after attempts).projectRoot
      dep := (c.after attempts).dep } := by
  induction attempts generalizing c with
  | nil => rfl
  | cons a attempts ih =>
    unfold after
    rw [ih, snd_attempt]

/-- No attempt succeeds. -/
def FailsThrough (c : Config) (attempts : List Attempt) : Prop :=
  ∀ before a later, attempts = before ++ a :: later → ((c.after before).attempt a).1 ≠ .ok ()

/-- **After failures the root is the one that was given or none.** It is none as soon as one of the texts has
been a dependency. -/
theorem FailsThrough.projectRoot_after (hf : c.FailsThrough attempts) :
    ((∀ a ∈ attempts, ¬ a.IsReadable) ∧ (c.after attempts).projectRoot = c.projectRoot) ∨
      (∃ a ∈ attempts, a.IsReadable) ∧ (c.after attempts).projectRoot = none := by
  rcases c.after_cases attempts with hnone | ⟨before, a, later, heq, ha, -, hroot⟩
  · exact .inl hnone
  · rcases projectRoot_attempt (c := c.after before) ha with ⟨-, -, hok, -⟩ | ⟨-, -, -, hlost⟩
    · exact absurd hok (hf before a later heq)
    · refine .inr ⟨⟨a, ?_, ha⟩, hroot.trans hlost⟩
      rw [heq]
      exact List.mem_append_right _ List.mem_cons_self

/-- **Settling again.** A failure leaves every field but the root as it was, and the root just if the text
was no dependency or no root was given. So attempts that have failed leave the given root for the next one
just as long as none of their texts was a dependency, and after others the working directory is checked.
After a success the next attempt checks the root that has been found. -/
theorem settle_failures (c : Config) :
    (∀ h e c', c.settle h = (.error e, c') →
      c' = { c with projectRoot := c'.projectRoot } ∧
      (c' = c ↔ Dependency.parse c.dependency = .error e ∨ c.projectRoot = none) ∧
      (c' ≠ c → c'.projectRoot = none)) ∧
    (∀ attempts, c.after attempts =
      { c with
        dependency := (c.after attempts).dependency
        projectRoot := (c.after attempts).projectRoot
        dep := (c.after attempts).dep }) ∧
    (∀ attempts, c.FailsThrough attempts →
      ((∀ a ∈ attempts, ¬ a.IsReadable) ∧ (c.after attempts).projectRoot = c.projectRoot) ∨
        (∃ a ∈ attempts, a.IsReadable) ∧ (c.after attempts).projectRoot = none) ∧
    (∀ before a later root, a.IsReadable → (∀ b ∈ later, ¬ b.IsReadable) →
      Project.findRoot a.host (c.after before).projectRoot = .ok root →
      (c.after (before ++ a :: later)).projectRoot = some root) ∧
    ∀ attempts a, ((c.after attempts).attempt a).1 = (Dependency.parse a.dependency).bind fun _ =>
      (Project.findRoot a.host (c.after attempts).projectRoot).map fun _ => () := by
  refine ⟨fun h e c' hs => ?_, c.after_eq, fun attempts hf => hf.projectRoot_after, ?_, fun attempts a =>
    fst_settle _ _⟩
  · rcases settle_error_cases hs with ⟨he, rfl⟩ | ⟨d, hd, -, rfl⟩
    · exact ⟨rfl, iff_of_true rfl (.inl he), fun hne => absurd rfl hne⟩
    · refine ⟨rfl, ⟨fun heq => .inr (congrArg projectRoot heq).symm, ?_⟩, fun _ => rfl⟩
      rintro (he | hroot)
      · rw [hd] at he
        cases he
      · cases c
        obtain rfl := hroot
        rfl
  · intro before a later root ha hlater hroot
    have hfound : ((c.after before).attempt a).2.projectRoot = some root := by
      rcases projectRoot_attempt (c := c.after before) ha with ⟨root', hroot', -, hsome⟩ | ⟨e, he, -⟩
      · rw [hroot] at hroot'
        obtain rfl := Except.ok.inj hroot'
        exact hsome
      · rw [hroot] at he
        cases he
    have hrest := after_of_not_isReadable (c := ((c.after before).attempt a).2) hlater
    rw [after_append]
    unfold after
    rw [hrest]
    exact hfound

/-- In `/w`, a project, there is a directory that is none. -/
def retryHost : Host :=
  .ofFiles (((FileSystem.empty.put ["w"] .dir).put ["w", "Makefile"] (.file [])).put ["w", "p"] .dir)
    ["w"] ⟨"/"⟩

-- The directory is asked for and refused; asked again, the configuration settles on where it is run.
example :
    let c : Config := { dependency := "a/b@1.0.0", projectRoot := some ⟨"/w/p"⟩ }
    let a : Attempt := ⟨retryHost, "a/b@1.0.0"⟩
    (c.attempt a).1 = .error (.notProjectRoot ⟨"/w/p"⟩) ∧
      ((c.after [a]).attempt a).1 = .ok () ∧ (c.after [a, a]).projectRoot = some ⟨"/w"⟩ := by
  decide +kernel

end Config

end SolVendor
