import ExactAlgebra.Proofs.Ratio

/-!
# Outcomes of constructions

What a construction returns may depend on its supply, which nobody who uses the result knows.  The
statements that are made about constructions hold whatever the supply is.

* `Build.Ensures m P F`: what `m` returns satisfies `P`, and the fault with which it fails satisfies
  `F`.
* `Build.Yields m pre post`: if `m` ends with all merges timely then it has begun so, and from `pre`
  it returns what satisfies `post`, unless its steps are exhausted.
* `Build.Timely m P`: what a timely run of `m` returns satisfies `P`.
* `Build.Limits fault m m'`: under a limit, `m` fails with the fault of the limit, or it does what
  `m'` does, and under a high enough one it does that.
* `Build.Gives m f t`: in this sense, if the value `t` is defined then `m` returns what has it.

Each comes with one rule for every way in which constructions are put together.
-/

namespace ExactAlgebra.Build

variable {α β : Type}

theorem run_bind (m : Build α) (f : α → Build β) (s : Supply) :
    (m >>= f) s = match m s with
      | (.ok a, s') => f a s'
      | (.error e, s') => (.error e, s') := by
  change ExceptT.bind m f s = _
  simp only [ExceptT.bind, ExceptT.mk, ExceptT.bindCont, bind, StateT.bind]
  rcases m s with ⟨a | a, s'⟩ <;> rfl

theorem bind_of_ok {m : Build α} {f : α → Build β} {s s' : Supply} {a : α}
    (h : m s = (.ok a, s')) : (m >>= f) s = f a s' := by rw [run_bind, h]

/-- What returns a result has got one from its first part. -/
theorem bind_eq_ok {m : Build α} {f : α → Build β} {s t : Supply} {b : β}
    (h : (m >>= f) s = (.ok b, t)) : ∃ a s', m s = (.ok a, s') ∧ f a s' = (.ok b, t) := by
  rw [run_bind] at h
  rcases hs : m s with ⟨e | a, s'⟩
  · rw [hs] at h
    exact nomatch h
  · rw [hs] at h
    exact ⟨a, s', rfl, h⟩

/-- What follows a fault is not carried out. -/
theorem bind_error {m : Build α} {f : α → Build β} {s : Supply} {e : Fault}
    (h : (m s).1 = .error e) : ((m >>= f) s).1 = .error e := by
  rw [run_bind]
  rcases hs : m s with ⟨e' | a, s'⟩
  · rw [hs] at h
    obtain rfl := Except.error.inj h
    rfl
  · rw [hs] at h
    exact nomatch h

/-! ## Postconditions -/

/-- What the construction returns satisfies `P`, and the fault with which it fails satisfies `F`. -/
def Ensures (m : Build α) (P : α → Prop) (F : Fault → Prop) : Prop :=
  ∀ s, match (m s).1 with
    | .ok a => P a
    | .error e => F e

/-- Nothing is promised of what any construction returns. -/
theorem ensures_true (m : Build α) : Ensures m (fun _ => True) (fun _ => True) := by
  intro s
  split <;> trivial

namespace Ensures

variable {m : Build α} {P P' : α → Prop} {Q : β → Prop} {F F' : Fault → Prop}

theorem ok {s s' : Supply} {a : α} (h : Ensures m P F) (hs : m s = (.ok a, s')) : P a := by
  have := h s
  rwa [hs] at this

theorem of_fst {s : Supply} {a : α} (h : Ensures m P F) (hs : (m s).1 = .ok a) : P a := by
  have := h s
  rwa [hs] at this

theorem of_error {s : Supply} {e : Fault} (h : Ensures m P F) (hs : (m s).1 = .error e) : F e := by
  have := h s
  rwa [hs] at this

theorem pure {a : α} (h : P a) : Ensures (Pure.pure a) P F := fun _ => h

theorem throw {e : Fault} (h : F e) : Ensures (MonadExcept.throw e : Build α) P F := fun _ => h

theorem mono (h : Ensures m P F) (hP : ∀ a, P a → P' a) (hF : ∀ e, F e → F' e) :
    Ensures m P' F' := by
  intro s
  have hs := h s
  split at hs
  · exact hP _ hs
  · exact hF _ hs

theorem imp (h : Ensures m P F) (hP : ∀ a, P a → P' a) : Ensures m P' F := h.mono hP fun _ => id

/-- What never fails fails with no fault other than any given ones. -/
theorem weaken (h : Ensures m P fun _ => False) : Ensures m P F :=
  h.mono (fun _ => id) fun _ => False.elim

theorem and (h : Ensures m P F) (h' : Ensures m P' F') :
    Ensures m (fun a => P a ∧ P' a) (fun e => F e ∧ F' e) := by
  intro s
  have hs := h s
  have hs' := h' s
  split at hs
  next e => rw [e] at hs'; exact ⟨hs, hs'⟩
  next e => rw [e] at hs'; exact ⟨hs, hs'⟩

theorem bind {f : α → Build β} (h : Ensures m P F) (hf : ∀ a, P a → Ensures (f a) Q F) :
    Ensures (m >>= f) Q F := by
  intro s
  rw [run_bind]
  have hs := h s
  rcases hm : m s with ⟨a | a, s'⟩
  · rw [hm] at hs
    exact hs
  · rw [hm] at hs
    exact hf a hs s'

theorem of_bind_pure {f : α → β} (h : Ensures (m >>= fun a => Pure.pure (f a)) Q F) :
    Ensures m (fun a => Q (f a)) F := by
  intro s
  have hs := h s
  rw [run_bind] at hs
  rcases hm : m s with ⟨a | a, s'⟩
  · rwa [hm] at hs
  · rwa [hm] at hs

theorem fresh : Ensures Build.fresh (fun _ => True) F := fun _ => trivial

theorem observe (c : Bool) : Ensures (Build.observe c) (fun _ => True) F := fun _ => trivial

theorem ite {c : Prop} [Decidable c] {m' : Build α} (h : c → Ensures m P F)
    (h' : ¬ c → Ensures m' P F) : Ensures (if c then m else m') P F := by
  split
  · exact h ‹_›
  · exact h' ‹_›

/-- A fold keeps what every step of it keeps. -/
theorem foldlM {f : β → α → Build β} {l : List α} {I : β → Prop}
    (h : ∀ a ∈ l, ∀ b, I b → Ensures (f b a) I F) {b : β} (hb : I b) :
    Ensures (l.foldlM f b) I F := by
  induction l generalizing b with
  | nil => rw [List.foldlM_nil]; exact .pure hb
  | cons a l ih =>
    rw [List.foldlM_cons]
    exact (h a List.mem_cons_self b hb).bind fun b hb =>
      ih (fun a ha => h a (List.mem_cons_of_mem _ ha)) hb

/-- A fold in which one of the steps never returns a result never returns one. -/
theorem foldlM_never {f : β → α → Build β} {l : List α} {a : α} (ha : a ∈ l)
    (h : ∀ b, Ensures (f b a) (fun _ => False) fun _ => True) (b : β) :
    Ensures (l.foldlM f b) (fun _ => False) fun _ => True := by
  induction l generalizing b with
  | nil => exact absurd ha List.not_mem_nil
  | cons c l ih =>
    rw [List.foldlM_cons]
    rcases List.mem_cons.mp ha with rfl | ha
    · exact (h b).bind fun _ => False.elim
    · exact (ensures_true _).bind fun b' _ => ih ha b'

end Ensures

/-- What the first construction ensures may be used of what it returns. -/
theorem bind_congr_of_ensures {m : Build α} {P : α → Prop} {F : Fault → Prop}
    (h : Ensures m P F) {f g : α → Build β} (hfg : ∀ a, P a → f a = g a) :
    m >>= f = m >>= g := by
  funext s
  rw [run_bind, run_bind]
  rcases hm : m s with ⟨a | a, s'⟩
  · rfl
  · exact congrFun (hfg a (h.ok hm)) s'

/-! ## Limits -/

/-- Under any limit, the construction fails with the fault of the limit, or it does what the other
one does; and from some limit on it does that. -/
def Limits (fault : Int → Fault) (m : Int → Build α) (m' : Build α) : Prop :=
  ∀ s, (∀ limit, (m limit s).1 = .error (fault limit) ∨ m limit s = m' s) ∧
    ∃ N, ∀ limit, N ≤ limit → m limit s = m' s

namespace Limits

variable {fault : Int → Fault} {m : Int → Build α} {m' : Build α}

theorem refl (m : Build α) : Limits fault (fun _ => m) m :=
  fun _ => ⟨fun _ => .inr rfl, 0, fun _ _ => rfl⟩

theorem bind {f : Int → α → Build β} {f' : α → Build β} (h : Limits fault m m')
    (hf : ∀ a, Limits fault (fun limit => f limit a) (f' a)) :
    Limits fault (fun limit => m limit >>= f limit) (m' >>= f') := by
  intro s
  obtain ⟨hany, N, hN⟩ := h s
  rcases hs : m' s with ⟨e | a, s'⟩
  · have hpass : ∀ limit, m limit s = m' s → (m limit >>= f limit) s = (m' >>= f') s :=
      fun limit hm => by rw [run_bind, run_bind, hm, hs]
    exact ⟨fun limit => (hany limit).imp bind_error (hpass limit),
      N, fun limit hlimit => hpass limit (hN limit hlimit)⟩
  · -- A limit that lets the first part pass hands its result on to the second.
    have hpass : ∀ limit, m limit s = m' s → (m limit >>= f limit) s = f limit a s' :=
      fun limit hm => by rw [run_bind, hm, hs]
    have hresult : (m' >>= f') s = f' a s' := by rw [run_bind, hs]
    obtain ⟨hany', N', hN'⟩ := hf a s'
    refine ⟨fun limit => ?_, max N N', fun limit hlimit => ?_⟩
    · rcases hany limit with hm | hm
      · exact .inl (bind_error hm)
      · dsimp only
        rw [hpass limit hm, hresult]
        exact hany' limit
    · dsimp only
      rw [hpass limit (hN limit (by omega)), hresult]
      exact hN' limit (by omega)

end Limits

/-! ## Timely constructions -/

/-- Whenever the construction ends with all merges timely, it has begun so, and from `pre` it
returns what satisfies `post`, unless its steps are exhausted. -/
def Yields (m : Build α) (pre : Prop) (post : α → Prop) : Prop :=
  ∀ s, (m s).2.timely = true → s.timely = true ∧
    (pre → match (m s).1 with
      | .ok a => post a
      | .error e => e = .exhausted)

namespace Yields

variable {m : Build α} {pre : Prop} {P P' : α → Prop} {Q : β → Prop}

theorem pure {a : α} (h : pre → P a) : Yields (Pure.pure a) pre P := fun _ hs => ⟨hs, h⟩

theorem throw {e : Fault} (h : pre → e = .exhausted) :
    Yields (MonadExcept.throw e : Build α) pre P := fun _ hs => ⟨hs, h⟩

theorem bind {f : α → Build β} (h : Yields m pre P) (hf : ∀ a, Yields (f a) (P a) Q) :
    Yields (m >>= f) pre Q := by
  intro s hs
  rw [run_bind] at hs ⊢
  have hm := h s
  rcases e : m s with ⟨a | a, s'⟩
  · rw [e] at hm hs
    exact hm hs
  · rw [e] at hm hs
    obtain ⟨h₁, h₂⟩ := hf a s' hs
    obtain ⟨h₃, h₄⟩ := hm h₁
    exact ⟨h₃, fun hp => h₂ (h₄ hp)⟩

theorem fresh : Yields Build.fresh pre (fun _ => pre) := fun _ hs => ⟨hs, id⟩

/-- A timely run of a construction that never exhausts its steps returns a result. -/
theorem returns {F : Fault → Prop} {s : Supply} (h : Yields m pre P) (hF : Ensures m P' F)
    (hx : ¬ F .exhausted) (hs : (m s).2.timely = true) (hp : pre) :
    ∃ a, (m s).1 = .ok a ∧ P a := by
  have hP := (h s hs).2 hp
  have hf := hF s
  split at hP
  next a e => exact ⟨a, e, hP⟩
  next e' e => rw [e, hP] at hf; exact absurd hf hx

end Yields

/-- A merge that was not timely is never forgotten. -/
def Remembers (m : Build α) : Prop := ∀ s, (m s).2.timely = true → s.timely = true

theorem Yields.remembers {m : Build α} {pre : Prop} {P : α → Prop} (h : Yields m pre P) :
    Remembers m := fun s hs => (h s hs).1

theorem Remembers.bind {m : Build α} {f : α → Build β} (h : Remembers m)
    (hf : ∀ a, Remembers (f a)) : Remembers (m >>= f) := by
  intro s hs
  rw [run_bind] at hs
  rcases e : m s with ⟨a | a, s'⟩
  · rw [e] at hs
    exact h s (by rw [e]; exact hs)
  · rw [e] at hs
    exact h s (by rw [e]; exact hf a s' hs)

/-- A timely run returns what satisfies `P`, unless its steps are exhausted. -/
abbrev Timely (m : Build α) (P : α → Prop) : Prop := Yields m True P

namespace Timely

variable {m : Build α} {P P' : α → Prop} {Q : β → Prop} {F : Fault → Prop}

theorem of_ensures (h : Ensures m P F) (hF : ∀ e, F e → e = .exhausted) (hm : Remembers m) :
    Timely m P := by
  refine fun s hs => ⟨hm s hs, fun _ => ?_⟩
  have hP := h s
  split at hP
  · exact hP
  · exact hF _ hP

theorem imp (h : Timely m P) (hP : ∀ a, P a → P' a) : Timely m P' := by
  refine fun s hs => ⟨(h s hs).1, fun _ => ?_⟩
  have hm := (h s hs).2 trivial
  split at hm
  · exact hP _ hm
  · exact hm

/-- What is ensured of any run holds of a timely one. -/
theorem and (h : Timely m P) (h' : Ensures m P' F) : Timely m fun a => P a ∧ P' a := by
  refine fun s hs => ⟨(h s hs).1, fun _ => ?_⟩
  have hm := (h s hs).2 trivial
  have hm' := h' s
  split at hm
  next a e =>
    rw [e] at hm'
    exact ⟨hm, hm'⟩
  next => exact hm

/-- A run is timely in both of its parts. -/
theorem bind {f : α → Build β} (h : Timely m P) (hf : ∀ a, P a → Timely (f a) Q)
    (hm : ∀ a, Remembers (f a)) : Timely (m >>= f) Q := by
  intro s hs
  rw [run_bind] at hs ⊢
  have hP := h s
  rcases e : m s with ⟨a | a, s'⟩
  · rw [e] at hP hs
    exact hP hs
  · rw [e] at hP hs
    obtain ⟨hbegan, hreturned⟩ := hP (hm a s' hs)
    exact ⟨hbegan, fun _ => (hf a (hreturned trivial) s' hs).2 trivial⟩

/-- In a timely run the merge that is observed was timely. -/
theorem observe_bind {c : Bool} {k : Unit → Build β} (hk : c = true → Timely (k ()) Q)
    (hm : Remembers (k ())) : Timely (Build.observe c >>= k) Q := by
  intro s hs
  have hbegan := hm { s with timely := s.timely && c } hs
  rw [Bool.and_eq_true] at hbegan
  exact ⟨hbegan.1, (hk hbegan.2 _ hs).2⟩

end Timely

/-! ## Constructions that give a value -/

/-- If the value `t` is defined, a timely run returns what has this value. -/
def Gives {ν : Type} (m : Build α) (f : α → Option ν) (t : Option ν) : Prop :=
  Yields m (t.isSome = true) fun a => f a = t

namespace Gives

variable {ν μ : Type} {m : Build α} {f : α → Option ν} {t : Option ν} {g : β → Option μ}
  {u : Option μ}

theorem pure {a : α} (h : t.isSome = true → f a = t) : Gives (Pure.pure a) f t := Yields.pure h

theorem throw {e : Fault} (h : t = none) : Gives (MonadExcept.throw e : Build α) f t :=
  Yields.throw fun ht => by rw [h] at ht; exact nomatch ht

theorem exhausted : Gives (MonadExcept.throw .exhausted : Build α) f t := Yields.throw fun _ => rfl

theorem ite {c : Prop} [Decidable c] {m' : Build α} (h : c → Gives m f t)
    (h' : ¬ c → Gives m' f t) : Gives (if c then m else m') f t := by
  split
  · exact h ‹_›
  · exact h' ‹_›

theorem congr {t' : Option ν} (h : Gives m f t') (ht : t.isSome = true → t' = t) :
    Gives m f t := by
  intro s hs
  obtain ⟨h₁, h₂⟩ := h s hs
  refine ⟨h₁, fun hsome => ?_⟩
  have := h₂ (by rw [ht hsome]; exact hsome)
  rw [← ht hsome]
  exact this

/-- First `m` returns what has the value `t`, then `k` what has the value `u`. -/
theorem bind {k : α → Build β} {v : α → Option μ} (h : Gives m f t)
    (ht : u.isSome = true → t.isSome = true) (hk : ∀ a, Gives (k a) g (v a))
    (hv : ∀ a, u.isSome = true → f a = t → v a = u) : Gives (m >>= k) g u := by
  intro s hs
  rw [run_bind] at hs ⊢
  have hm := h s
  rcases e : m s with ⟨a | a, s'⟩
  · rw [e] at hm hs
    obtain ⟨h₁, h₂⟩ := hm hs
    exact ⟨h₁, fun hu => h₂ (ht hu)⟩
  · rw [e] at hm hs
    obtain ⟨h₁, h₂⟩ := hk a s' hs
    obtain ⟨h₃, h₄⟩ := hm h₁
    refine ⟨h₃, fun hu => ?_⟩
    have he := hv a hu (h₄ (ht hu))
    rw [he] at h₂
    exact h₂ hu

/-- The age of a new node has no bearing on values. -/
theorem fresh_bind {k : Nat → Build β} (hk : ∀ n, Gives (k n) g u) :
    Gives (Build.fresh >>= k) g u :=
  Yields.bind (P := fun _ => u.isSome = true) Yields.fresh hk

/-- After a merge has been observed, it is known to have been timely. -/
theorem observe_bind {c : Bool} {k : Unit → Build β} {v : Option μ} (hk : Gives (k ()) g v)
    (hv : c = true → u.isSome = true → v = u) : Gives (Build.observe c >>= k) g u := by
  intro s hs
  obtain ⟨h₁, h₂⟩ := hk { s with timely := s.timely && c } hs
  rw [Bool.and_eq_true] at h₁
  refine ⟨h₁.1, fun hu => ?_⟩
  obtain rfl := hv h₁.2 hu
  exact h₂ hu

/-- A fold of steps that change no value changes no value. -/
theorem foldlM {γ : Type} {k : β → γ → Build β} (hk : ∀ b a, Gives (k b a) g (g b))
    (l : List γ) (b : β) : Gives (l.foldlM k b) g (g b) := by
  induction l generalizing b with
  | nil => rw [List.foldlM_nil]; exact .pure fun _ => rfl
  | cons a l ih =>
    rw [List.foldlM_cons]
    exact (hk b a).bind id ih fun b' _ h => h

/-- A timely run that never exhausts its steps returns what has the value. -/
theorem returns {F : Fault → Prop} {P : α → Prop} {s : Supply} (h : Gives m f t)
    (hF : Ensures m P F) (hx : ¬ F .exhausted) (hs : (m s).2.timely = true)
    (ht : t.isSome = true) : ∃ a, (m s).1 = .ok a ∧ f a = t :=
  Yields.returns h hF hx hs ht

end Gives

end ExactAlgebra.Build

namespace ExactAlgebra.Num

variable {F : Fault → Prop}

/-! ## New numbers -/

/-- A new number has the value that is asked for, and nothing can go wrong. -/
theorem new_ensures (r : Ratio) : (new r).Ensures (fun n => n.value = r.toRat) F :=
  Build.Ensures.fresh.bind fun _ _ => .pure rfl

theorem add_ensures (a b : Num) : (a.add b).Ensures (fun n => n.value = a.value + b.value) F :=
  (new_ensures _).imp fun _ h => h.trans (Ratio.toRat_add ..)

theorem subtract_ensures (a b : Num) :
    (a.subtract b).Ensures (fun n => n.value = a.value - b.value) F :=
  (new_ensures _).imp fun _ h => h.trans (Ratio.toRat_subtract ..)

theorem multiply_ensures (a b : Num) :
    (a.multiply b).Ensures (fun n => n.value = a.value * b.value) F :=
  (new_ensures _).imp fun _ h => h.trans (Ratio.toRat_multiply ..)

theorem negate_ensures (a : Num) : a.negate.Ensures (fun n => n.value = -a.value) F :=
  (new_ensures _).imp fun _ h => h.trans (Ratio.toRat_negate _)

theorem integerPower_ensures (base exponent : Num) :
    (base.integerPower exponent).Ensures (fun n => n.value = base.value ^ exponent.value.num) F :=
  have hnew := (new_ensures (F := F) (.ofRat (base.value ^ exponent.value.num))).imp
    fun _ h => h.trans (Ratio.toRat_ofRat _)
  .ite (fun _ => Build.Ensures.fresh.bind fun _ _ => Build.Ensures.fresh.bind fun _ _ => hnew)
    fun _ => hnew

theorem divide_ensures (a b : Num) (h : b.value = 0 → F (.divisionByZero a.value)) :
    (a.divide b).Ensures (fun n => n.value = a.value / b.value) F := by
  rw [divide_eq]
  exact .ite (fun h0 => .throw (h (isZero_iff.mp h0))) fun _ =>
    (new_ensures _).imp fun _ hn => hn.trans (Ratio.toRat_ofRat _)

end ExactAlgebra.Num
