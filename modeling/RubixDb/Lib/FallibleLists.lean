import RubixDb.Lib.Run

/-!
# Lists that a computation may fail to produce

`concatM` runs a step on every element of a list and appends the results. Two judgments
about such computations: `Parallel`, when two produce lists whose elements are related one by
one or fail alike, and `IsUnion`, when one is defined exactly where two others are and has
the elements of both, up to a relation. Both are kept by steps that respect the relation.
-/

namespace Lib

variable {ε α β γ δ : Type} {f : α → Except ε (List β)} {g : α → β} {l as : List α} {a : α}
    {out bs : List β} {m : Except ε (List α)}

theorem mapM_ok {f : α → Except ε β} (h : ∀ a ∈ l, f a = .ok (g a)) : l.mapM f = .ok (l.map g) := by
  induction l with
  | nil => rfl
  | cons a l ih =>
    rw [List.mapM_cons, h a (by simp), ih fun b hb => h b (List.mem_cons_of_mem a hb)]
    rfl

/-- The results of a `mapM` that succeeded stand at the places of their arguments. -/
theorem forall₂_of_mapM {f : α → Except ε β} {r : List β} (h : l.mapM f = .ok r) :
    List.Forall₂ (fun a b => f a = .ok b) l r := by
  induction l generalizing r with
  | nil =>
    cases h
    exact .nil
  | cons a l ih =>
    rw [List.mapM_cons] at h
    obtain ⟨b, hb, h⟩ := bind_eq_ok.mp h
    obtain ⟨bs, hbs, h⟩ := bind_eq_ok.mp h
    cases h
    exact .cons hb (ih hbs)

/-- Appends what `f` produces for each element, failing at the first that fails. -/
def concatM (f : α → Except ε (List β)) : List α → Except ε (List β)
  | [] => .ok []
  | a :: as => do
    let ys ← f a
    let rest ← concatM f as
    .ok (ys ++ rest)

theorem concatM_cons_eq_ok :
    concatM f (a :: as) = .ok out ↔
      ∃ ys rest, f a = .ok ys ∧ concatM f as = .ok rest ∧ out = ys ++ rest := by
  rw [concatM, bind_eq_ok]
  constructor
  · rintro ⟨ys, hys, h⟩
    obtain ⟨rest, hrest, h⟩ := bind_eq_ok.mp h
    exact ⟨ys, rest, hys, hrest, (Except.ok.inj h).symm⟩
  · rintro ⟨ys, rest, hys, hrest, rfl⟩
    refine ⟨ys, hys, ?_⟩
    rw [hrest]
    rfl

/-- A list is dealt with part by part. -/
theorem concatM_append_eq_ok {bs : List α} (h : concatM f (as ++ bs) = .ok out) :
    ∃ y z, concatM f as = .ok y ∧ concatM f bs = .ok z ∧ out = y ++ z := by
  induction as generalizing out with
  | nil => exact ⟨[], out, rfl, h, rfl⟩
  | cons a as ih =>
    obtain ⟨ys, rest, hys, hrest, rfl⟩ := concatM_cons_eq_ok.mp h
    obtain ⟨y, z, hy, hz, rfl⟩ := ih hrest
    exact ⟨ys ++ y, z, concatM_cons_eq_ok.mpr ⟨ys, y, hys, hy, rfl⟩, hz,
      (List.append_assoc _ _ _).symm⟩

theorem concatM_map {f : β → Except ε (List γ)} {f' : α → Except ε (List γ)}
    (h : ∀ a, f (g a) = f' a) (as : List α) : concatM f (as.map g) = concatM f' as := by
  induction as with
  | nil => rfl
  | cons a as ih => rw [List.map_cons, concatM, concatM, h, ih]

theorem concatM_defined : ∀ {as : List α},
    (∃ out, concatM f as = .ok out) ↔ ∀ a ∈ as, ∃ ys, f a = .ok ys := by
  intro as
  induction as with
  | nil => exact ⟨fun _ a ha => absurd ha List.not_mem_nil, fun _ => ⟨[], rfl⟩⟩
  | cons a as ih =>
    rw [List.forall_mem_cons, ← ih]
    constructor
    · rintro ⟨out, h⟩
      obtain ⟨ys, rest, hys, hrest, _⟩ := concatM_cons_eq_ok.mp h
      exact ⟨⟨ys, hys⟩, rest, hrest⟩
    · rintro ⟨⟨ys, hys⟩, rest, hrest⟩
      exact ⟨ys ++ rest, concatM_cons_eq_ok.mpr ⟨ys, rest, hys, hrest, rfl⟩⟩

theorem mem_concatM : ∀ {as : List α} {out : List β},
    concatM f as = .ok out → ∀ y, y ∈ out ↔ ∃ a ∈ as, ∃ ys, f a = .ok ys ∧ y ∈ ys := by
  intro as
  induction as with
  | nil =>
    intro out h y
    cases h
    simp
  | cons a as ih =>
    intro out h y
    obtain ⟨ys, rest, hys, hrest, rfl⟩ := concatM_cons_eq_ok.mp h
    rw [List.mem_append, ih hrest y, List.exists_mem_cons_iff]
    have hhead : (∃ zs, f a = .ok zs ∧ y ∈ zs) ↔ y ∈ ys := by
      rw [hys]
      exact ⟨fun ⟨_, h, hy⟩ => Except.ok.inj h ▸ hy, fun hy => ⟨ys, rfl, hy⟩⟩
    rw [hhead]

/-! ## Related lists -/

/-- Both produce lists whose elements are related one by one, or both fail alike. -/
inductive Parallel (R : α → β → Prop) : Except ε (List α) → Except ε (List β) → Prop where
  | ok {as : List α} {bs : List β} : List.Forall₂ R as bs → Parallel R (.ok as) (.ok bs)
  | error (e : ε) : Parallel R (.error e) (.error e)

variable {R : α → β → Prop} {S : γ → δ → Prop}

theorem exists_related (h : List.Forall₂ R as bs) (ha : a ∈ as) : ∃ b ∈ bs, R a b := by
  induction h with
  | nil => cases ha
  | @cons x y xs ys hxy _ ih =>
    rcases List.mem_cons.mp ha with rfl | ha
    · exact ⟨y, List.mem_cons_self, hxy⟩
    · obtain ⟨b, hb, hab⟩ := ih ha
      exact ⟨b, List.mem_cons_of_mem y hb, hab⟩

theorem Parallel.bind {m' : Except ε (List β)} {f : List α → Except ε (List γ)}
    {g : List β → Except ε (List δ)} (h : Parallel R m m')
    (hf : ∀ as bs, List.Forall₂ R as bs → Parallel S (f as) (g bs)) :
    Parallel S (m >>= f) (m' >>= g) := by
  cases h with
  | ok h => exact hf _ _ h
  | error e => exact .error e

theorem Parallel.concatM {f : α → Except ε (List γ)} {g : β → Except ε (List δ)}
    (hf : ∀ a b, R a b → Parallel S (f a) (g b)) (h : List.Forall₂ R as bs) :
    Parallel S (Lib.concatM f as) (Lib.concatM g bs) := by
  induction h with
  | nil => exact .ok .nil
  | cons hab _ ih =>
    refine (hf _ _ hab).bind fun xs ys hxs => ih.bind fun xs' ys' hxs' => .ok ?_
    exact List.rel_append hxs hxs'

/-! ## Unions -/

/-- `y` is in the list, up to `R`. -/
def Has (R : α → α → Prop) (l : List α) (y : α) : Prop := ∃ z ∈ l, R y z

/-- `m` is defined where both others are, and has then the elements of both. -/
structure IsUnion (R : α → α → Prop) (m ma mb : Except ε (List α)) : Prop where
  defined : (∃ l, m = .ok l) ↔ (∃ l, ma = .ok l) ∧ ∃ l, mb = .ok l
  has_iff : ∀ {l la lb}, m = .ok l → ma = .ok la → mb = .ok lb →
    ∀ y, Has R l y ↔ Has R la y ∨ Has R lb y

section Union

variable {R : α → α → Prop} {S : β → β → Prop} {ma mb : Except ε (List α)}

theorem IsUnion.refl (m : Except ε (List α)) : IsUnion R m m m where
  defined := ⟨fun h => ⟨h, h⟩, And.left⟩
  has_iff := by
    intro l la lb h ha hb y
    rw [h] at ha hb
    cases ha
    cases hb
    exact (or_self_iff).symm

theorem IsUnion.of_lists {la lb : List α} (h : ∀ y, Has R l y ↔ Has R la y ∨ Has R lb y) :
    IsUnion R (.ok l : Except ε (List α)) (.ok la) (.ok lb) where
  defined := ⟨fun _ => ⟨⟨la, rfl⟩, lb, rfl⟩, fun _ => ⟨l, rfl⟩⟩
  has_iff := by
    intro l la lb h ha hb y
    cases h
    cases ha
    cases hb
    exact h y

theorem has_concatM (h : concatM f as = .ok out) (y : β) :
    Has S out y ↔ ∃ a ∈ as, ∃ ys, f a = .ok ys ∧ Has S ys y := by
  constructor
  · rintro ⟨z, hz, hyz⟩
    obtain ⟨a, ha, ys, hys, hz⟩ := (mem_concatM h z).mp hz
    exact ⟨a, ha, ys, hys, z, hz, hyz⟩
  · rintro ⟨a, ha, ys, hys, z, hz, hyz⟩
    exact ⟨z, (mem_concatM h z).mpr ⟨a, ha, ys, hys, hz⟩, hyz⟩

/-- Where the steps unite element by element, so does what they produce together. -/
theorem IsUnion.of_steps {fa fb : α → Except ε (List β)}
    (h : ∀ a ∈ as, IsUnion S (f a) (fa a) (fb a)) :
    IsUnion S (concatM f as) (concatM fa as) (concatM fb as) where
  defined := by
    rw [concatM_defined, concatM_defined, concatM_defined]
    constructor
    · intro hf
      exact ⟨fun a ha => ((h a ha).defined.mp (hf a ha)).1,
        fun a ha => ((h a ha).defined.mp (hf a ha)).2⟩
    · rintro ⟨hfa, hfb⟩ a ha
      exact (h a ha).defined.mpr ⟨hfa a ha, hfb a ha⟩
  has_iff := by
    intro l la lb hl hla hlb y
    have hd := concatM_defined.mp ⟨l, hl⟩
    have hda := concatM_defined.mp ⟨la, hla⟩
    have hdb := concatM_defined.mp ⟨lb, hlb⟩
    rw [has_concatM hl, has_concatM hla, has_concatM hlb]
    constructor
    · rintro ⟨a, ha, ys, hys, hy⟩
      obtain ⟨za, hza⟩ := hda a ha
      obtain ⟨zb, hzb⟩ := hdb a ha
      rcases ((h a ha).has_iff hys hza hzb y).mp hy with hy | hy
      · exact .inl ⟨a, ha, za, hza, hy⟩
      · exact .inr ⟨a, ha, zb, hzb, hy⟩
    · rintro (⟨a, ha, ys, hys, hy⟩ | ⟨a, ha, ys, hys, hy⟩)
      · obtain ⟨zs, hzs⟩ := hd a ha
        obtain ⟨zb, hzb⟩ := hdb a ha
        exact ⟨a, ha, zs, hzs, ((h a ha).has_iff hzs hys hzb y).mpr (.inl hy)⟩
      · obtain ⟨zs, hzs⟩ := hd a ha
        obtain ⟨za, hza⟩ := hda a ha
        exact ⟨a, ha, zs, hzs, ((h a ha).has_iff hzs hza hys y).mpr (.inr hy)⟩

/-- A step that does not tell related elements apart does on a list what it does on
another that has them all. -/
theorem step_of_has (htrans : ∀ x y z, S x y → S y z → S x z)
    (hf : ∀ a b, R a b → Parallel S (f a) (f b)) (ha : Has R l a) :
    ∃ b ∈ l, ((∃ ys, f b = .ok ys) → ∃ ys, f a = .ok ys) ∧
      ∀ ys y, f a = .ok ys → Has S ys y → ∃ zs, f b = .ok zs ∧ Has S zs y := by
  obtain ⟨b, hb, hab⟩ := ha
  have halike := hf a b hab
  refine ⟨b, hb, ?_, ?_⟩
  · rintro ⟨ys, hys⟩
    rw [hys] at halike
    cases hfa : f a with
    | error e =>
      rw [hfa] at halike
      cases halike
    | ok xs => exact ⟨xs, rfl⟩
  · rintro ys y hys ⟨z, hz, hyz⟩
    rw [hys] at halike
    cases hfb : f b with
    | error e =>
      rw [hfb] at halike
      cases halike
    | ok zs =>
      rw [hfb] at halike
      cases halike with
      | ok hall =>
        obtain ⟨z', hz', hzz'⟩ := exists_related hall hz
        exact ⟨zs, rfl, z', hz', htrans y z z' hyz hzz'⟩

/-- A step that respects the relation, run on the elements of a union. -/
theorem IsUnion.bind_concatM (hrefl : ∀ x, R x x) (htrans : ∀ x y z, S x y → S y z → S x z)
    (h : IsUnion R m ma mb) (hf : ∀ a b, R a b → Parallel S (f a) (f b)) :
    IsUnion S (m >>= concatM f) (ma >>= concatM f) (mb >>= concatM f) where
  defined := by
    constructor
    · rintro ⟨out, hout⟩
      obtain ⟨l, hl, hout⟩ := bind_eq_ok.mp hout
      obtain ⟨⟨la, hla⟩, lb, hlb⟩ := h.defined.mp ⟨l, hl⟩
      have hstep := concatM_defined.mp ⟨out, hout⟩
      have hpart : ∀ a, Has R la a ∨ Has R lb a → ∃ ys, f a = .ok ys := by
        intro a ha
        obtain ⟨b, hb, hdef, _⟩ := step_of_has htrans hf ((h.has_iff hl hla hlb a).mpr ha)
        exact hdef (hstep b hb)
      rw [hla, hlb]
      exact ⟨concatM_defined.mpr fun a ha => hpart a (.inl ⟨a, ha, hrefl a⟩),
        concatM_defined.mpr fun a ha => hpart a (.inr ⟨a, ha, hrefl a⟩)⟩
    · rintro ⟨⟨outa, houta⟩, outb, houtb⟩
      obtain ⟨la, hla, houta⟩ := bind_eq_ok.mp houta
      obtain ⟨lb, hlb, houtb⟩ := bind_eq_ok.mp houtb
      obtain ⟨l, hl⟩ := h.defined.mpr ⟨⟨la, hla⟩, lb, hlb⟩
      rw [hl]
      refine concatM_defined.mpr fun a ha => ?_
      rcases (h.has_iff hl hla hlb a).mp ⟨a, ha, hrefl a⟩ with ha | ha
      · obtain ⟨b, hb, hdef, _⟩ := step_of_has htrans hf ha
        exact hdef (concatM_defined.mp ⟨outa, houta⟩ b hb)
      · obtain ⟨b, hb, hdef, _⟩ := step_of_has htrans hf ha
        exact hdef (concatM_defined.mp ⟨outb, houtb⟩ b hb)
  has_iff := by
    intro out outa outb hout houta houtb y
    obtain ⟨l, hl, hout⟩ := bind_eq_ok.mp hout
    obtain ⟨la, hla, houta⟩ := bind_eq_ok.mp houta
    obtain ⟨lb, hlb, houtb⟩ := bind_eq_ok.mp houtb
    rw [has_concatM hout, has_concatM houta, has_concatM houtb]
    constructor
    · rintro ⟨a, ha, ys, hys, hy⟩
      rcases (h.has_iff hl hla hlb a).mp ⟨a, ha, hrefl a⟩ with ha | ha
      · obtain ⟨b, hb, _, hhas⟩ := step_of_has htrans hf ha
        exact .inl ⟨b, hb, hhas ys y hys hy⟩
      · obtain ⟨b, hb, _, hhas⟩ := step_of_has htrans hf ha
        exact .inr ⟨b, hb, hhas ys y hys hy⟩
    · rintro (⟨a, ha, ys, hys, hy⟩ | ⟨a, ha, ys, hys, hy⟩)
      · obtain ⟨b, hb, _, hhas⟩ :=
          step_of_has htrans hf ((h.has_iff hl hla hlb a).mpr (.inl ⟨a, ha, hrefl a⟩))
        exact ⟨b, hb, hhas ys y hys hy⟩
      · obtain ⟨b, hb, _, hhas⟩ :=
          step_of_has htrans hf ((h.has_iff hl hla hlb a).mpr (.inr ⟨a, ha, hrefl a⟩))
        exact ⟨b, hb, hhas ys y hys hy⟩

/-- A total step that leaves the elements as they are. -/
theorem IsUnion.bind_total (h : IsUnion R m ma mb) {g : List α → Except ε (List α)}
    (hg : ∀ l, ∃ out, g l = .ok out ∧ ∀ y, Has R out y ↔ Has R l y) :
    IsUnion R (m >>= g) (ma >>= g) (mb >>= g) := by
  have hdef : ∀ x : Except ε (List α), (∃ out, (x >>= g) = .ok out) ↔ ∃ l, x = .ok l := by
    intro x
    constructor
    · rintro ⟨out, hout⟩
      obtain ⟨l, hl, _⟩ := bind_eq_ok.mp hout
      exact ⟨l, hl⟩
    · rintro ⟨l, rfl⟩
      obtain ⟨out, hout, _⟩ := hg l
      exact ⟨out, hout⟩
  have hhas : ∀ {x : Except ε (List α)} {out : List α}, (x >>= g) = .ok out →
      ∃ l, x = .ok l ∧ ∀ y, Has R out y ↔ Has R l y := by
    intro x out hout
    obtain ⟨l, hl, hout⟩ := bind_eq_ok.mp hout
    obtain ⟨out', hout', hsame⟩ := hg l
    rw [hout] at hout'
    cases hout'
    exact ⟨l, hl, hsame⟩
  constructor
  · rw [hdef, hdef, hdef]
    exact h.defined
  · intro out outa outb hout houta houtb y
    obtain ⟨l, hl, hsame⟩ := hhas hout
    obtain ⟨la, hla, hsamea⟩ := hhas houta
    obtain ⟨lb, hlb, hsameb⟩ := hhas houtb
    rw [hsame, hsamea, hsameb]
    exact h.has_iff hl hla hlb y

end Union

end Lib
