import Mathlib.Logic.Basic

/-! # Errors and outcomes

The functions of `lib.rs` return `Result<_, Error>`; a few also `unwrap` or `expect`, and the walks
over the auth DAG are `while` loops with no bound of their own. The model runs every such loop on
an explicit fuel, so a call of the model ends in one of four ways (`Outcome`): a value, an
`Error`, a panic at an `unwrap` or `expect`, or a loop still running when its fuel is spent.

* `bind_eq_ok`: the value of a sequenced computation comes from values of both parts;
* `foldlM_ok_induction`: an invariant of one step of a `for` loop over a list holds of the whole
  loop when the loop ends with a value;
* `result`: the `Result` value of a call, for the callers that inspect it instead of using `?`;
* `Settles o P`: `o` neither panics nor runs out of fuel, and a value it ends with satisfies `P`
  (a total-correctness triple up to `Error`s), with its rules for `bind` and `for` loops;
* `bind_ne_panic`, `bind_err`: a sequenced run panics, or ends with an `Error`, only where one of
  its parts does; `foldlM_ne_panic`, `foldlM_err` are the same for `for` loops;
* `Stabilizes f`: a run on fuel ends one way, with a value or an `Error`, from some fuel on;
* `Agree R o o'`: two runs end alike unless one runs out of fuel, with related values or one
  `Error`, with its rules for `bind` and `for` loops; `Agree.ok_or_err`: two such runs that both
  settle end with related values or with one `Error`. -/

namespace RumaStateRes.Core.Result

/-- Modelled from the spec: the `Error` enum of `error.rs`, which is not among the sources. Its
variants are the ones §7 of the spec names; `lib.rs` builds the first two with these texts. -/
inductive Error where
  | notFound (msg : String)
  | invalidPdu (msg : String)
  | serdeError
  | unsupported (version : String)
  deriving DecidableEq, Repr

/-- How a call of the model ends. -/
inductive Outcome (α : Type) where
  | ok (a : α)
  | err (e : Error)
  | panic
  | diverge
  deriving DecidableEq, Repr

namespace Outcome

variable {α β : Type}

/-- Sequencing: the first `Err`, panic or spent loop ends the computation (`?`). -/
def bind : Outcome α → (α → Outcome β) → Outcome β
  | ok a, f => f a
  | err e, _ => err e
  | panic, _ => panic
  | diverge, _ => diverge

instance : Monad Outcome where
  pure := ok
  bind := bind

instance : LawfulMonad Outcome :=
  LawfulMonad.mk' Outcome (fun x => by cases x <;> rfl) (fun _ _ => rfl)
    (fun x _ _ => by cases x <;> rfl)

@[simp] theorem pure_eq (a : α) : (pure a : Outcome α) = ok a := rfl

@[simp] theorem ok_bind (a : α) (f : α → Outcome β) : ok a >>= f = f a := rfl

@[simp] theorem err_bind (e : Error) (f : α → Outcome β) : err e >>= f = err e := rfl

@[simp] theorem panic_bind (f : α → Outcome β) : (panic : Outcome α) >>= f = panic := rfl

@[simp] theorem diverge_bind (f : α → Outcome β) : (diverge : Outcome α) >>= f = diverge := rfl

theorem bind_eq_ok {x : Outcome α} {f : α → Outcome β} {b : β} :
    x >>= f = ok b ↔ ∃ a, x = ok a ∧ f a = ok b := by
  cases x <;> simp

/-- `?` on a `Result`. -/
def ofExcept : Except Error α → Outcome α
  | .ok a => ok a
  | .error e => err e

/-- `ok_or_else(|| e)?`: a missing value is the error `e`. -/
def okOr (e : Error) : Option α → Outcome α
  | some a => ok a
  | none => err e

/-- `unwrap` and `expect`: a missing value panics. -/
def expect : Option α → Outcome α
  | some a => ok a
  | none => panic

/-- The `Result` a call returns, for the caller to inspect (`if let Ok(..) = ..`); a panic, or a
loop that never returns, stays so. -/
def result : Outcome α → Outcome (Except Error α)
  | ok a => ok (.ok a)
  | err e => ok (.error e)
  | panic => panic
  | diverge => diverge

@[simp] theorem result_ok (a : α) : (ok a).result = ok (.ok a) := rfl

@[simp] theorem ofExcept_eq_ok {x : Except Error α} {a : α} : ofExcept x = ok a ↔ x = .ok a := by
  cases x <;> simp [ofExcept]

@[simp] theorem okOr_eq_ok {e : Error} {x : Option α} {a : α} : okOr e x = ok a ↔ x = some a := by
  cases x <;> simp [okOr]

@[simp] theorem expect_eq_ok {x : Option α} {a : α} : expect x = ok a ↔ x = some a := by
  cases x <;> simp [expect]

/-- Every step of the loop keeps `P` on the values it returns, so the whole loop does. -/
theorem foldlM_ok_induction {γ : Type} {f : β → γ → Outcome β} (P : β → Prop) :
    ∀ l : List γ, (∀ b c b', c ∈ l → P b → f b c = ok b' → P b') →
      ∀ {b b' : β}, P b → l.foldlM f b = ok b' → P b'
  | [], _, _, _, hb, h => by cases h; exact hb
  | c :: l, step, _, _, hb, h => by
    obtain ⟨b₁, h₁, h₂⟩ := bind_eq_ok.mp h
    exact foldlM_ok_induction P l (fun b c' b' hc => step b c' b' (List.mem_cons_of_mem _ hc))
      (step _ c _ (List.mem_cons_self _ _) hb h₁) h₂

/-- A map over `l` whose every call ends with a value ends with the list of those values. -/
theorem mapM_ok {γ : Type} {f : γ → Outcome β} {g : γ → β} :
    ∀ {l : List γ}, (∀ x ∈ l, f x = ok (g x)) → l.mapM f = ok (l.map g)
  | [], _ => rfl
  | x :: l, h => by
    rw [List.mapM_cons, h x (List.mem_cons_self x l),
      mapM_ok fun y hy => h y (List.mem_cons_of_mem x hy)]
    rfl

/-- A map over `l` that ends with a list ends with one that `g` takes back to `l`. -/
theorem map_of_mapM_ok {γ : Type} {f : γ → Outcome β} {g : β → γ} (hf : ∀ x b, f x = ok b → g b = x) :
    ∀ {l : List γ} {l' : List β}, l.mapM f = ok l' → l'.map g = l
  | [], _, h => by cases h; rfl
  | x :: l, _, h => by
    rw [List.mapM_cons] at h
    obtain ⟨b, hb, h⟩ := bind_eq_ok.mp h
    obtain ⟨bs, hbs, h⟩ := bind_eq_ok.mp h
    cases h
    rw [List.map_cons, hf x b hb, map_of_mapM_ok hf hbs]

/-- Every value a map over `l` ends with is a value of one call. -/
theorem forall_mem_of_mapM_ok {γ : Type} {f : γ → Outcome β} {P : β → Prop} (hf : ∀ x b, f x = ok b → P b) :
    ∀ {l : List γ} {l' : List β}, l.mapM f = ok l' → ∀ b ∈ l', P b
  | [], _, h => by cases h; simp
  | x :: l, _, h => by
    rw [List.mapM_cons] at h
    obtain ⟨b, hb, h⟩ := bind_eq_ok.mp h
    obtain ⟨bs, hbs, h⟩ := bind_eq_ok.mp h
    cases h
    exact List.forall_mem_cons.mpr ⟨hf x b hb, forall_mem_of_mapM_ok hf hbs⟩

/-- A `for` loop over `l` ends with a value when every step from a state `P` holds of (the
elements before the step) ends with a value of which `P` holds for one element more. -/
theorem foldlM_ok_of_prefix {γ : Type} (f : β → γ → Outcome β) (l : List γ)
    (P : List γ → β → Prop)
    (step : ∀ pre c suf b, l = pre ++ c :: suf → P pre b → ∃ b', f b c = ok b' ∧ P (pre ++ [c]) b')
    (b : β) (hb : P [] b) : ∃ b', l.foldlM f b = ok b' ∧ P l b' := by
  suffices h : ∀ suf pre b, l = pre ++ suf → P pre b → ∃ b', suf.foldlM f b = ok b' ∧ P l b' from
    h l [] b rfl hb
  intro suf
  induction suf with
  | nil => intro pre b hl hp; exact ⟨b, rfl, by simpa [hl] using hp⟩
  | cons c suf ih =>
    intro pre b hl hp
    obtain ⟨b₁, h₁, hp₁⟩ := step pre c suf b hl hp
    obtain ⟨b', h', hp'⟩ := ih (pre ++ [c]) b₁ (by simp [hl]) hp₁
    exact ⟨b', by simp [h₁, h'], hp'⟩

/-! ### Computations that settle -/

/-- `o` ends with a value satisfying `P`, or with an `Error`. -/
def Settles (o : Outcome α) (P : α → Prop) : Prop :=
  (∃ a, o = ok a ∧ P a) ∨ ∃ e, o = err e

theorem settles_ok {P : α → Prop} {a : α} (h : P a) : Settles (ok a) P := Or.inl ⟨a, rfl, h⟩

theorem settles_err {P : α → Prop} (e : Error) : Settles (err e) P := Or.inr ⟨e, rfl⟩

theorem settles_ofExcept (x : Except Error α) : Settles (ofExcept x) fun a => x = .ok a := by
  cases x
  · exact settles_err _
  · exact settles_ok rfl

theorem settles_okOr (e : Error) (x : Option α) : Settles (okOr e x) fun a => x = some a := by
  cases x
  · exact settles_err e
  · exact settles_ok rfl

theorem Settles.bind {x : Outcome α} {f : α → Outcome β} {P : α → Prop} {Q : β → Prop}
    (hx : Settles x P) (hf : ∀ a, P a → Settles (f a) Q) : Settles (x >>= f) Q := by
  rcases hx with ⟨a, rfl, ha⟩ | ⟨e, rfl⟩
  · exact hf a ha
  · exact settles_err e

theorem Settles.of_ok {o : Outcome α} {P : α → Prop} {a : α} (h : Settles o P) (ho : o = ok a) :
    P a := by
  rcases h with ⟨b, rfl, hb⟩ | ⟨e, rfl⟩
  · exact (Outcome.ok.inj ho) ▸ hb
  · exact nomatch ho

theorem Settles.ne_panic {o : Outcome α} {P : α → Prop} (h : Settles o P) : o ≠ panic := by
  rcases h with ⟨a, rfl, -⟩ | ⟨e, rfl⟩ <;> nofun

theorem Settles.ne_diverge {o : Outcome α} {P : α → Prop} (h : Settles o P) : o ≠ diverge := by
  rcases h with ⟨a, rfl, -⟩ | ⟨e, rfl⟩ <;> nofun

theorem Settles.mono {o : Outcome α} {P Q : α → Prop} (h : Settles o P) (hPQ : ∀ a, P a → Q a) :
    Settles o Q := by
  rcases h with ⟨a, rfl, ha⟩ | ⟨e, rfl⟩
  · exact settles_ok (hPQ a ha)
  · exact settles_err e

/-- The `Result` of a call that settles is a value. -/
theorem Settles.result {o : Outcome α} {P : α → Prop} (h : Settles o P) : Settles o.result fun _ => True := by
  rcases h with ⟨a, rfl, -⟩ | ⟨e, rfl⟩ <;> exact settles_ok trivial

theorem result_ne_panic {o : Outcome α} (h : o ≠ panic) : o.result ≠ panic := by
  cases o with
  | ok a => nofun
  | err e => nofun
  | panic => exact absurd rfl h
  | diverge => nofun

/-- A `for` loop settles when each step, from a state `P` holds of after the elements before it,
settles in a state `P` holds of after one element more. -/
theorem foldlM_settles {γ : Type} (f : β → γ → Outcome β) (l : List γ) (P : List γ → β → Prop)
    (step : ∀ pre c suf b, l = pre ++ c :: suf → P pre b → Settles (f b c) (P (pre ++ [c])))
    (b : β) (hb : P [] b) : Settles (l.foldlM f b) (P l) := by
  suffices h : ∀ suf pre b, l = pre ++ suf → P pre b → Settles (suf.foldlM f b) (P l) from
    h l [] b rfl hb
  intro suf
  induction suf with
  | nil => intro pre b hl hp; exact settles_ok (by simpa [hl] using hp)
  | cons c suf ih =>
    intro pre b hl hp
    exact (step pre c suf b hl hp).bind fun b₁ hp₁ => ih (pre ++ [c]) b₁ (by simp [hl]) hp₁

/-! ### Runs that never panic -/

theorem bind_ne_panic {x : Outcome α} {f : α → Outcome β} (hx : x ≠ panic) (hf : ∀ a, x = ok a → f a ≠ panic) :
    x >>= f ≠ panic := by
  cases x with
  | ok a => exact hf a rfl
  | err e => nofun
  | panic => exact absurd rfl hx
  | diverge => nofun

/-- A `for` loop whose every step never panics never panics. -/
theorem foldlM_ne_panic {γ : Type} {f : β → γ → Outcome β} :
    ∀ {l : List γ}, (∀ b, ∀ c ∈ l, f b c ≠ panic) → ∀ b, l.foldlM f b ≠ panic
  | [], _, _ => nofun
  | c :: l, hf, b => bind_ne_panic (hf b c (List.mem_cons_self c l)) fun b' _ =>
    foldlM_ne_panic (fun b c hc => hf b c (List.mem_cons_of_mem _ hc)) b'

/-- A map whose every call settles settles. -/
theorem mapM_settles {γ : Type} {f : γ → Outcome β} {P : β → Prop} :
    ∀ {l : List γ}, (∀ x ∈ l, Settles (f x) P) → Settles (l.mapM f) fun _ => True
  | [], _ => settles_ok trivial
  | x :: l, h => by
    rw [List.mapM_cons]
    exact (h x (List.mem_cons_self x l)).bind fun _ _ =>
      (mapM_settles fun y hy => h y (List.mem_cons_of_mem x hy)).bind fun _ _ => settles_ok trivial

/-! ### Runs on fuel that end -/

/-- From some fuel on, a run on fuel ends one way: with a value or with an `Error`. -/
def Stabilizes (f : Nat → Outcome α) : Prop :=
  ∃ N o, Settles o (fun _ => True) ∧ ∀ fuel, f (fuel + N) = o

theorem Stabilizes.of_settles {o : Outcome α} {P : α → Prop} (h : Settles o P) : Stabilizes fun _ => o :=
  ⟨0, o, h.mono fun _ _ => trivial, fun _ => rfl⟩

theorem Stabilizes.of_eq {f g : Nat → Outcome α} (h : Stabilizes f) (heq : ∀ fuel, g fuel = f fuel) :
    Stabilizes g :=
  let ⟨N, o, ho, hrun⟩ := h
  ⟨N, o, ho, fun fuel => (heq _).trans (hrun fuel)⟩

/-- A run that stabilizes followed by runs that all stabilize stabilizes. -/
theorem Stabilizes.bind {f : Nat → Outcome α} {g : α → Nat → Outcome β} (hf : Stabilizes f)
    (hg : ∀ a, Stabilizes (g a)) : Stabilizes fun fuel => f fuel >>= fun a => g a fuel := by
  obtain ⟨N, o, ho, hrun⟩ := hf
  rcases ho with ⟨a, rfl, -⟩ | ⟨e, rfl⟩
  · obtain ⟨N', o', ho', hrun'⟩ := hg a
    refine ⟨N + N', o', ho', fun fuel => ?_⟩
    have h₁ : fuel + (N + N') = fuel + N' + N := by omega
    have h₂ : fuel + N' + N = fuel + N + N' := by omega
    show f (fuel + (N + N')) >>= (fun a => g a (fuel + (N + N'))) = o'
    rw [h₁, hrun, ok_bind, h₂, hrun']
  · exact ⟨N, err e, settles_err e, fun fuel => by
      show f (fuel + N) >>= (fun a => g a (fuel + N)) = err e
      rw [hrun]; rfl⟩

/-- A `for` loop whose every step stabilizes, from every state, stabilizes. -/
theorem foldlM_stabilizes {γ : Type} {f : Nat → β → γ → Outcome β} :
    ∀ {l : List γ}, (∀ b, ∀ c ∈ l, Stabilizes fun fuel => f fuel b c) →
      ∀ b, Stabilizes fun fuel => l.foldlM (f fuel) b
  | [], _, b => Stabilizes.of_settles (settles_ok (P := fun _ => True) (a := b) trivial)
  | c :: l, hf, b => (Stabilizes.bind (hf b c (List.mem_cons_self c l)) fun b' =>
      foldlM_stabilizes (fun b c hc => hf b c (List.mem_cons_of_mem _ hc)) b').of_eq fun _ => rfl

/-- A run that stabilizes has one outcome for all fuel from some bound on. -/
theorem Stabilizes.exists_le {f : Nat → Outcome α} (h : Stabilizes f) :
    ∃ N o, Settles o (fun _ => True) ∧ ∀ fuel, N ≤ fuel → f fuel = o :=
  let ⟨N, o, ho, hrun⟩ := h
  ⟨N, o, ho, fun fuel hN => Nat.sub_add_cancel hN ▸ hrun (fuel - N)⟩

/-! ### Where an `Error` comes from -/

@[simp] theorem expect_ne_err (x : Option α) (e : Error) : expect x ≠ err e := by
  cases x <;> nofun

@[simp] theorem result_ne_err (o : Outcome α) (e : Error) : o.result ≠ err e := by
  cases o <;> nofun

@[simp] theorem ofExcept_eq_err {x : Except Error α} {e : Error} : ofExcept x = err e ↔ x = .error e := by
  cases x <;> simp [ofExcept]

/-- Every `Error` a sequenced computation ends with is one of its first part or, after a value,
of its second part. -/
theorem bind_err {E : Error → Prop} {x : Outcome α} {f : α → Outcome β} (hx : ∀ e, x = err e → E e)
    (hf : ∀ a, x = ok a → ∀ e, f a = err e → E e) : ∀ e, x >>= f = err e → E e := by
  cases x with
  | ok a => exact hf a rfl
  | err e' => exact fun _ h => by cases h; exact hx _ rfl
  | panic => nofun
  | diverge => nofun

/-- A `for` loop ends only with an `Error` one of its steps ends with. -/
theorem foldlM_err {γ : Type} {E : Error → Prop} {f : β → γ → Outcome β} :
    ∀ {l : List γ}, (∀ b, ∀ c ∈ l, ∀ e, f b c = err e → E e) → ∀ b e, l.foldlM f b = err e → E e
  | [], _, _ => nofun
  | c :: l, hf, b => bind_err (hf b c (List.mem_cons_self c l)) fun b' _ =>
    foldlM_err (fun b c hc => hf b c (List.mem_cons_of_mem _ hc)) b'

/-- A map ends only with an `Error` one of its calls ends with. -/
theorem mapM_err {γ : Type} {E : Error → Prop} {f : γ → Outcome β} :
    ∀ {l : List γ}, (∀ x ∈ l, ∀ e, f x = err e → E e) → ∀ e, l.mapM f = err e → E e
  | [], _ => nofun
  | x :: l, hf => by
    rw [List.mapM_cons]
    exact bind_err (hf x (List.mem_cons_self x l)) fun _ _ =>
      bind_err (mapM_err fun y hy => hf y (List.mem_cons_of_mem x hy)) fun _ _ _ h => nomatch h

/-- A computation that settles and never ends with an `Error` ends with a value. -/
theorem Settles.exists_ok {o : Outcome α} {P : α → Prop} (h : Settles o P) (hne : ∀ e, o = err e → False) :
    ∃ a, o = ok a ∧ P a :=
  h.resolve_right fun ⟨e, he⟩ => hne e he

/-! ### Two runs -/

/-- Two runs **agree**: unless one of them runs out of fuel, they end alike, with values related
by `R`, with one and the same `Error`, or both with a panic. -/
inductive Agree (R : α → β → Prop) : Outcome α → Outcome β → Prop
  | ok {a : α} {b : β} : R a b → Agree R (Outcome.ok a) (Outcome.ok b)
  | err (e : Error) : Agree R (Outcome.err e) (Outcome.err e)
  | panic : Agree R Outcome.panic Outcome.panic
  | diverge_left (o : Outcome β) : Agree R Outcome.diverge o
  | diverge_right (o : Outcome α) : Agree R o Outcome.diverge

namespace Agree

variable {γ δ : Type} {R : α → β → Prop}

/-- A run agrees with itself. -/
protected theorem rfl : ∀ {o : Outcome α}, Agree (fun a b => a = b) o o
  | .ok _ => .ok rfl
  | .err e => .err e
  | .panic => .panic
  | .diverge => .diverge_left _

/-- Runs that agree, each followed by runs that agree from the related values they end with,
agree. -/
theorem bind {S : γ → δ → Prop} {x : Outcome α} {x' : Outcome β} {f : α → Outcome γ}
    {f' : β → Outcome δ} (h : Agree R x x') (hf : ∀ a b, x = Outcome.ok a → x' = Outcome.ok b → R a b → Agree S (f a) (f' b)) :
    Agree S (x >>= f) (x' >>= f') := by
  cases h with
  | ok h => exact hf _ _ rfl rfl h
  | err e => exact .err e
  | panic => exact .panic
  | diverge_left => exact .diverge_left _
  | diverge_right => exact .diverge_right _

/-- One run, followed by two runs that agree from each value it ends with. -/
theorem bind_same {S : γ → δ → Prop} {x : Outcome α} {f : α → Outcome γ} {f' : α → Outcome δ}
    (hf : ∀ a, x = Outcome.ok a → Agree S (f a) (f' a)) : Agree S (x >>= f) (x >>= f') :=
  Agree.rfl.bind fun a _ hx _ h => by subst h; exact hf a hx

/-- Two `for` loops over one list agree when their steps agree from related states. -/
theorem foldlM {ε : Type} {R : α → β → Prop} {f : α → ε → Outcome α} {f' : β → ε → Outcome β}
    (hf : ∀ a b c, R a b → Agree R (f a c) (f' b c)) :
    ∀ (l : List ε) {a : α} {b : β}, R a b → Agree R (l.foldlM f a) (l.foldlM f' b)
  | [], _, _, h => .ok h
  | c :: l, _, _, h => (hf _ _ c h).bind fun _ _ _ _ h' => foldlM hf l h'

/-- Two runs agree when neither panics, an `Error` of either is an `Error` of the other unless the
other runs out of fuel, and the values they both end with are related. -/
theorem intro {o : Outcome α} {o' : Outcome β} (hp : o ≠ Outcome.panic) (hp' : o' ≠ Outcome.panic)
    (herr : ∀ e, o = Outcome.err e → o' = Outcome.err e ∨ o' = diverge)
    (herr' : ∀ e, o' = Outcome.err e → o = Outcome.err e ∨ o = diverge)
    (hok : ∀ a b, o = Outcome.ok a → o' = Outcome.ok b → R a b) : Agree R o o' := by
  cases o with
  | diverge => exact .diverge_left _
  | panic => exact absurd rfl hp
  | err e =>
    rcases herr e rfl with rfl | rfl
    · exact .err e
    · exact .diverge_right _
  | ok a =>
    cases o' with
    | ok b => exact .ok (hok a b rfl rfl)
    | err e => rcases herr' e rfl with h | h <;> cases h
    | panic => exact absurd rfl hp'
    | diverge => exact .diverge_right _

/-- **Two runs that agree and both settle** end with related values or with one `Error`. -/
theorem ok_or_err {o : Outcome α} {o' : Outcome β} {P : α → Prop} {P' : β → Prop} (h : Agree R o o')
    (hs : Settles o P) (hs' : Settles o' P') :
    (∃ a b, o = Outcome.ok a ∧ o' = Outcome.ok b ∧ R a b) ∨ ∃ e, o = Outcome.err e ∧ o' = Outcome.err e := by
  cases h with
  | ok h => exact .inl ⟨_, _, rfl, rfl, h⟩
  | err e => exact .inr ⟨e, rfl, rfl⟩
  | panic => exact absurd rfl hs.ne_panic
  | diverge_left => exact absurd rfl hs.ne_diverge
  | diverge_right => exact absurd rfl hs'.ne_diverge

end Agree

end Outcome

end RumaStateRes.Core.Result
