import ExactAlgebra.Proofs.Content.Construction
import ExactAlgebra.Proofs.Content.Rounds

/-!
# Merging nested sums

A sum among the terms of a sum is merged when its coefficient has become one.  It then counts no
longer as a term, and its own content is added in its place.  What the draft holds in the end is
determined by the content of the terms, so neither the order of the terms matters nor whether some
of them are added up beforehand, unless the others make a difference to which sums this merges.

* `sumMerging`: which sums are due, and what merging them adds.
* `SumDraft.flatten_flattens`: the rounds of the code are rounds of this merging.
* `ofSum_flattens`: a timely sum has the content to which the content of its terms is flattened.
* `ofSum_perm`, `ofSum_nested`: the order of the terms does not matter, and some of them may be
  added up first.
-/

namespace ExactAlgebra

open Build ExactAlgebra.Expr

/-! ## Agreement of timely runs -/

/-- Timely runs of the two constructions return equal expressions. -/
def Build.Agree (m m' : Build Expr) : Prop :=
  ∀ s s', (m s).2.timely = true → (m' s').2.timely = true →
    ∃ r r', (m s).1 = .ok r ∧ (m' s').1 = .ok r' ∧ (r == r') = true

theorem Build.Timely.agree {m m' : Build Expr} {P P' Q Q' : Expr → Prop} (h : Timely m P)
    (h' : Timely m' P') (hm : Finishes m Q) (hm' : Finishes m' Q')
    (heq : ∀ r r', P r → P' r' → (r == r') = true) : Agree m m' := by
  intro s s' hs hs'
  obtain ⟨r, hr, hP⟩ := h.returns hm (fun hx => hx rfl) hs trivial
  obtain ⟨r', hr', hP'⟩ := h'.returns hm' (fun hx => hx rfl) hs' trivial
  exact ⟨r, r', hr, hr', heq r r' hP hP'⟩

/-! ## Merging sums -/

/-- These are the powers of a sum. -/
def OfSum (k : Multiset (ℕ × ℕ)) : Prop := ∃ t : Expr, t.Canonical ∧ t.isSum = true ∧ t.powers = k

open Classical in
/-- The sums with the coefficient one. -/
noncomputable def dueSums (c : Content) : Finset (Multiset (ℕ × ℕ)) :=
  {k ∈ c.2.support | c.2 k = 1 ∧ OfSum k}

open Classical in
/-- A merged sum is taken away as a term, and its content is added. -/
noncomputable def sumMerging : Merging (Multiset (ℕ × ℕ)) Content where
  due := dueSums
  change k := if h : OfSum k then h.choose.content - (0, Finsupp.single k 1) else 0

theorem mem_due_sum {c : Content} {k : Multiset (ℕ × ℕ)} :
    k ∈ sumMerging.due c ↔ c.2 k = 1 ∧ OfSum k := by
  change k ∈ dueSums c ↔ _
  simp only [dueSums, Finset.mem_filter, Finsupp.mem_support_iff, and_iff_right_iff_imp]
  rintro ⟨h1, -⟩
  rw [h1]
  exact one_ne_zero

theorem change_sum {t : Expr} (ht : t.Canonical) (hs : t.isSum = true) :
    sumMerging.change t.powers = t.content - (0, Finsupp.single t.powers 1) := by
  have h : OfSum t.powers := ⟨t, ht, hs, rfl⟩
  obtain ⟨hc, hsum, hpowers⟩ := h.choose_spec
  have hbeq := hc.eq_of_powers ht ((scale_of_isSum hsum).trans (scale_of_isSum hs).symm) hpowers
  rw [sumMerging]
  simp only [dif_pos h, content_congr hbeq]

/-- Terms without sums make no difference to which sums are merged. -/
theorem undisturbed_of_plain {b : Content} (hb : Plain b.2) (a : Content) :
    sumMerging.Undisturbed a b := by
  intro c _ _
  ext k
  rw [mem_due_sum, mem_due_sum]
  refine and_congr_left fun hk => ?_
  obtain ⟨t, ht, hs, rfl⟩ := hk
  rw [Prod.snd_add, Finsupp.add_apply, hb t ht hs, add_zero]

namespace SumDraft

variable {d : SumDraft} {c : Content}

theorem absorb_remembers (d : SumDraft) (t : Expr) (n : Num) : Remembers (d.absorb t n) :=
  (absorb_gives (A := .all) (ρ := fun _ => none) d t n).remembers

theorem unnest_remembers (d : SumDraft) (t : Expr) : Remembers (d.unnest t) :=
  (unnest_gives (A := .all) (ρ := fun _ => none) d t).remembers

theorem unnestAll_remembers (ts : List Expr) (d : SumDraft) : Remembers (ts.foldlM unnest d) :=
  (Gives.foldlM (unnest_gives (A := .all) (ρ := fun _ => none)) ts d).remembers

theorem flatten_remembers (rounds : ℕ) (d : SumDraft) : Remembers (d.flatten rounds) :=
  (flatten_gives (A := .all) (ρ := fun _ => none) rounds d).remembers

theorem collapse_remembers (level : ℕ) (d : SumDraft) :
    Remembers (d.collapse fun factors => productWith (sumAt level) factors []) :=
  (collapse_gives (productWith_gives_factors (A := .all) (ρ := fun _ => none) (sumAt_gives level))
    d).remembers

/-- The draft holds this content in terms that may be entries of a sum. -/
def Carries (d : SumDraft) (c : Content) : Prop := d.Collects c ∧ d.Sound

/-- Taking out a term with the coefficient one. -/
theorem Carries.erase (h : d.Carries c) {t : Expr} {n : Num} (hn : d.coefficients.get? t = some n)
    (h1 : n.isOne = true) : SumDraft.Carries { d with coefficients := d.coefficients.erase t }
      (c - (0, Finsupp.single t.powers 1)) := by
  obtain ⟨⟨hmerged, hcontent⟩, hdistinct, hall⟩ := h
  refine ⟨⟨fun p hp => hmerged p (List.mem_of_mem_eraseP hp), ?_⟩, hdistinct.erase t, hall.erase t⟩
  have htotal := Ledger.total_eq_of_get? powers Num.value hn fun _ hk => powers_congr hk
  rw [← hcontent, htotal, Num.isOne_iff.mp h1, Prod.mk_sub_mk, sub_zero,
    add_sub_cancel_left]

/-- A timely merge changes what the draft holds as merging does. -/
theorem unnest_carries (h : d.Carries c) {t : Expr} (ht : t.Stable) (hs : t.isSum = true) :
    Timely (d.unnest t) (·.Carries (c + sumMerging.change t.powers)) := by
  unfold unnest
  split
  next n hn =>
    refine .observe_bind (fun h1 => ?_) (absorb_remembers _ _ _)
    obtain ⟨hcollects, hsound⟩ := h.erase hn h1
    have habsorb := absorb_collects hcollects ht .one
    rw [show Num.one.value = 1 from rfl, one_smul, sub_add_eq_add_sub, add_sub_assoc,
      ← change_sum ht.canonical hs] at habsorb
    exact (Timely.of_ensures habsorb (fun _ => False.elim) (absorb_remembers _ _ _)).and
      (absorb_sound hsound ht.canonical .one)
  next =>
    refine .observe_bind (fun h => by cases h) fun s hs => hs

/-- All that is listed is merged. -/
theorem unnestAll_carries (h : d.Carries c) {ts : List Expr}
    (ht : ∀ t ∈ ts, t.Stable ∧ t.isSum = true) : Timely (ts.foldlM unnest d)
      (·.Carries (c + (ts.map fun t => sumMerging.change t.powers).sum)) := by
  induction ts generalizing d c with
  | nil =>
    rw [List.map_nil, List.sum_nil, add_zero]
    exact .pure fun _ => h
  | cons t ts ih =>
    rw [List.forall_mem_cons] at ht
    rw [List.foldlM_cons, List.map_cons, List.sum_cons, ← add_assoc]
    exact (unnest_carries h ht.1.1 ht.1.2).bind (fun d' hd => ih hd ht.2) fun d' =>
      unnestAll_remembers ts d'

theorem Carries.mem_nested (h : d.Carries c) {t : Expr} (ht : t ∈ d.nested) :
    t.Stable ∧ t.isSum = true ∧ c.2 t.powers = 1 := by
  obtain ⟨n, hn, hs, h1⟩ := SumDraft.mem_nested ht
  exact ⟨⟨(h.2.2 _ hn).1.1, h.1.merged _ hn⟩, hs,
    (h.1.coefficient h.2 hn).trans (Num.isOne_iff.mp h1)⟩

/-- The terms that are listed are those that are due. -/
theorem Carries.lists (h : d.Carries c) : sumMerging.Lists powers d.nested c where
  nodup := by
    have hall := Sound.nodup_powers h.2
    rw [Multiset.map_coe, Multiset.coe_nodup, List.map_map] at hall
    rw [nested, List.map_map]
    exact hall.sublist (List.Sublist.map _ List.filter_sublist)
  mem_due k := by
    rw [mem_due_sum, List.mem_map]
    constructor
    · rintro ⟨h1, t, ht, hs, rfl⟩
      have hmem : t.powers ∈ (Multiset.ofList (d.coefficients.entries.map fun p =>
          (p.1.powers, p.2.value))).map Prod.fst := by
        by_contra habsent
        rw [← h.1.content, Ledger.total, collect_apply_of_notMem habsent] at h1
        exact zero_ne_one h1
      rw [Multiset.map_coe, Multiset.mem_coe, List.map_map] at hmem
      obtain ⟨p, hp, hpt⟩ := List.mem_map.mp hmem
      have hvalue : p.2.value = 1 := by rw [← h.1.coefficient h.2 hp, ← h1, ← hpt]; rfl
      have hterm := (h.2.2 p hp).1
      have hsum := ht.isSum_of_powers hterm.1 hs hterm.scale_eq_one hpt
      refine ⟨p.1, List.mem_map_of_mem (List.mem_filter.mpr ⟨hp, ?_⟩), hpt⟩
      rw [Bool.and_eq_true]
      exact ⟨hsum, Num.isOne_iff.mpr hvalue⟩
    · rintro ⟨t, ht, rfl⟩
      obtain ⟨hstable, hs, h1⟩ := h.mem_nested ht
      exact ⟨h1, t, hstable.canonical, hs, rfl⟩

/-- The rounds of a timely run are rounds of merging. -/
theorem flatten_flattens (rounds : ℕ) (h : d.Carries c) : Timely (d.flatten rounds)
    fun d' => ∃ c', sumMerging.Flattens c c' ∧ d'.Carries c' ∧ d'.nested = [] := by
  induction rounds generalizing d c with
  | zero => exact .throw fun _ => rfl
  | succ rounds ih =>
    rw [flatten]
    split
    next hnil => exact .pure fun _ => ⟨c, .done (h.lists.due_eq_empty_iff.mpr hnil), h, hnil⟩
    next hne =>
      have hall := unnestAll_carries h fun t ht => ⟨(h.mem_nested ht).1, (h.mem_nested ht).2.1⟩
      rw [← h.lists.round_eq] at hall
      refine hall.bind (fun d' hd => ?_) fun d' => flatten_remembers rounds d'
      refine (ih hd).imp fun d'' hd' => ?_
      obtain ⟨c', hflattens, hcarries⟩ := hd'
      exact ⟨c', .round (fun hdue => hne (h.lists.due_eq_empty_iff.mp hdue)) hflattens, hcarries⟩

end SumDraft

namespace Expr

/-- **A timely sum has the content to which the content of its terms is flattened.** -/
theorem ofSum_flattens {c : Content} {terms : SignedTerms} (h : Adds c terms) :
    Timely (ofSum terms) fun r => ∃ c', sumMerging.Flattens c c' ∧ HasContent c' r := by
  obtain ⟨ht, rfl⟩ := h
  have hcollects := SumDraft.absorbAll_collects .empty ht
  rw [zero_add] at hcollects
  have hsound := SumDraft.absorbAll_sound .empty fun p hp => (ht p hp).canonical
  have habsorb : Timely (SumDraft.empty.absorbAll terms) (·.Carries (totalContent terms)) :=
    (Timely.of_ensures hcollects (fun _ => False.elim)
      (SumDraft.absorbAll_gives (A := .all) (ρ := fun _ => none) terms .empty).remembers).and hsound
  refine habsorb.bind (fun d hd => ?_) fun d =>
    (SumDraft.flatten_remembers _ d).bind (SumDraft.collapse_remembers _)
  refine (SumDraft.flatten_flattens d.rounds hd).bind (fun d' hd' => ?_)
    (SumDraft.collapse_remembers _)
  obtain ⟨c', hflattens, hcarries, hnested⟩ := hd'
  refine (Timely.of_ensures (collapse_multiples (sumAt_addsUp _) hcarries.1 hcarries.2 hnested)
    (fun _ => id) (SumDraft.collapse_remembers _ d')).imp fun r hr => ?_
  exact ⟨c', hflattens, hr⟩

theorem ofSum_remembers (terms : SignedTerms) : Remembers (ofSum terms) :=
  (ofSum_gives (A := .all) (ρ := fun _ => none) terms).remembers

/-- The order of the terms does not matter. -/
theorem ofSum_perm {terms others : SignedTerms} (h : ∀ p ∈ terms, p.1.Stable)
    (hperm : others.Perm terms) : Agree (ofSum others) (ofSum terms) := by
  have htotal : totalContent others = totalContent terms := (hperm.map _).sum_eq
  have hothers := ofSum_flattens ⟨fun p hp => h p (hperm.mem_iff.mp hp), htotal⟩
  refine hothers.agree (ofSum_flattens ⟨h, rfl⟩) (ofSum_finishes _) (ofSum_finishes _) ?_
  rintro r r' ⟨c, hc, hr⟩ ⟨c', hc', hr'⟩
  exact hr.stable.canonical.eq_of_content hr'.stable.canonical
    (hr.content.trans ((hc.unique hc').trans hr'.content.symm))

/-- Some of the terms may be added up first, unless the others make a difference to which sums this
merges. -/
theorem ofSum_nested {terms others : SignedTerms} (h : ∀ p ∈ terms ++ others, p.1.Stable)
    (hb : sumMerging.Undisturbed (totalContent terms) (totalContent others)) :
    Agree (do ofSum ((← ofSum terms, .plus) :: others)) (ofSum (terms ++ others)) := by
  rw [List.forall_mem_append] at h
  have hnested : Timely (do ofSum ((← ofSum terms, .plus) :: others)) fun r =>
      ∃ c c', sumMerging.Flattens (totalContent terms) c ∧
        sumMerging.Flattens (c + totalContent others) c' ∧ HasContent c' r := by
    refine (ofSum_flattens ⟨h.1, rfl⟩).bind (fun r hr => ?_) fun r => ofSum_remembers _
    obtain ⟨c, hc, hr⟩ := hr
    refine (ofSum_flattens ⟨List.forall_mem_cons.mpr ⟨hr.stable, h.2⟩, ?_⟩).imp fun r' hr' =>
      ⟨c, hr'.choose, hc, hr'.choose_spec⟩
    rw [totalContent_plus, hr.content]
  have htogether := ofSum_flattens ⟨List.forall_mem_append.mpr h, totalContent_append terms others⟩
  refine hnested.agree htogether (Ensures.bind (ofSum_finishes _) fun r _ => ofSum_finishes _)
    (ofSum_finishes _) ?_
  rintro r r' ⟨c, c₁, hc, hc₁, hr⟩ ⟨c₂, hc₂, hr'⟩
  exact hr.stable.canonical.eq_of_content hr'.stable.canonical
    (hr.content.trans ((hc₁.unique (hc.resume hb hc₂)).trans hr'.content.symm))

end Expr

end ExactAlgebra
