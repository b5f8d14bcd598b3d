import ActorLang.Proofs.Store.Paths
import ActorLang.Proofs.Store.Portability

/-!
# Equalities in a copy

A copy has one variable for each variable of the original, but a procedure in two variables is
copied twice, and the copies differ.  So two equal parts of a value are equal in the copy, provided
that wherever both have the same procedure, they have it in the same variable.
-/

namespace ActorLang

open List

namespace Store

variable {s t : Store} {a b v w : Value} {d e d' e' : Datum} {ren : Renaming} {x y : VarId}
  {label : Option Feature} {features : List Feature}

/-! ### Data with the shapes of others -/

theorem eq_scalar_of_shape {a : Scalar} (h : s.datumShape d = .atom a) :
  d = .scalar a
  := by
  revert h
  fun_cases datumShape s d <;> simp

theorem eq_record_of_shape (h : s.datumShape d = .record label features) :
  ∃ id, d = .record id ∧ (s.record id).label = label ∧ (s.record id).fields.map (·.1) = features
  := by
  revert h
  fun_cases datumShape s d <;> simp

theorem differ_of_shape_eq (hd : t.datumShape d' = s.datumShape d)
    (he : t.datumShape e' = s.datumShape e) (hdiffer : t.Differ d' e') :
  s.Differ d e ∨ ∃ a : Scalar, a.isPlain = false ∧ d = .scalar a ∧ e = .scalar a
  := by
  by_contra! hcontra
  obtain ⟨hsame, hone⟩ := hcontra
  cases d with
  | scalar a =>
    cases e with
    | record => exact hsame trivial
    | scalar b =>
      have hplain : a.isPlain = true ∧ b.isPlain = true ∧ a.same b = true := by
        rw [Differ, Bool.not_eq_false] at hsame
        rcases Scalar.same_iff.mp hsame with ⟨x, y, rfl, rfl, -⟩ | ⟨rfl, -⟩
        · exact ⟨rfl, rfl, hsame⟩
        · have ha : a.isPlain = true := by
            by_contra h
            exact hone a (by simpa using h) rfl rfl
          exact ⟨ha, ha, hsame⟩
      obtain ⟨ha, hb, hsame⟩ := hplain
      rw [(datumShape_plain ha s).1] at hd
      rw [(datumShape_plain hb s).1] at he
      rw [eq_scalar_of_shape hd, eq_scalar_of_shape he, Differ, hsame] at hdiffer
      cases hdiffer
  | record =>
    cases e with
    | scalar => exact hsame trivial
    | record =>
      obtain ⟨_, rfl, hlabel, hfeatures⟩ := eq_record_of_shape hd
      obtain ⟨_, rfl, hlabel', hfeatures'⟩ := eq_record_of_shape he
      rw [Differ, hlabel, hlabel', hfeatures, hfeatures'] at hdiffer
      exact hsame hdiffer

/-! ### Paths that converge -/

/-- From some variable on the paths are the same, or they are the same as a whole. -/
def Converge (s : Store) (v : Value) (path path' : List Feature) : Prop :=
  ∃ init init' rest, path = init ++ rest ∧ path' = init' ++ rest ∧
    (init = init' ∨ ∃ x y, s.at? v (init.map .field) = some (.var x) ∧
      s.at? v (init'.map .field) = some (.var y) ∧ s.root x = s.root y)

theorem ValueCopy.at?_some {steps : List Step} (ht : s.Mirrored ren t) (h : s.ValueCopy ren t v w)
    (ha : s.at? v steps = some a) :
  ∃ b, t.at? w steps = some b ∧ s.ValueCopy ren t a b
  := by
  have hrel := h.rel_at? ht steps
  rw [ha] at hrel
  cases hb : t.at? w steps with
  | none =>
    rw [hb] at hrel
    cases hrel
  | some b =>
    rw [hb] at hrel
    cases hrel with
    | some hcopy => exact ⟨b, rfl, hcopy⟩

theorem Converge.copy {path path' : List Feature} (ht : s.Mirrored ren t)
    (hvw : s.ValueCopy ren t v w) (h : s.Converge v path path') :
  t.Converge w path path'
  := by
  obtain ⟨init, init', rest, hpath, hpath', heq | ⟨x, y, hx, hy, hroot⟩⟩ := h
  · exact ⟨init, init', rest, hpath, hpath', .inl heq⟩
  · refine ⟨init, init', rest, hpath, hpath', .inr ?_⟩
    obtain ⟨u, hu, hxu⟩ := hvw.at?_some ht hx
    obtain ⟨_, hu', hyu⟩ := hvw.at?_some ht hy
    cases hxu
    cases hyu
    exact ⟨_, _, hu, hu', by rw [Renaming.apply, Renaming.apply, hroot]⟩

theorem Converge.lookAt?_eq {path path' : List Feature} (h : s.Converge v path path') :
  s.lookAt? v path = s.lookAt? v path'
  := by
  obtain ⟨_, _, rest, rfl, rfl, rfl | ⟨x, y, hx, hy, hroot⟩⟩ := h
  · rfl
  · simp only [lookAt?, map_append, at?_append, hx, hy, Option.bind_some]
    cases rest with
    | nil => exact congrArg some (resolve_eq_of_root_eq hroot)
    | cons => simp only [map_cons, at?, resolve_eq_of_root_eq hroot]

/-! ### Equal parts -/

/-- Two parts of a value, by the paths that lead to them, have their procedures, configurators and
configurations in common: wherever both have the same one, their paths have converged. -/
def Common (s : Store) (v : Value) (left right : List Feature) : Prop :=
  ∀ (rest : List Feature) (a : Scalar), a.isPlain = false → s.lookAt? v (left ++ rest) = some (.datum (.scalar a)) →
    s.lookAt? v (right ++ rest) = some (.datum (.scalar a)) →
    s.Converge v (left ++ rest) (right ++ rest)

theorem ValueCopy.lookAt? {path : List Feature} (ht : s.Mirrored ren t) (h : s.ValueCopy ren t v w)
    (hw : t.lookAt? w path = some a) :
  ∃ d e, s.lookAt? v path = some (.datum d) ∧ a = .datum e ∧ t.datumShape e = s.datumShape d
  := by
  obtain ⟨_, hu', rfl⟩ := Option.map_eq_some_iff.mp hw
  have hrel := h.rel_at? ht (path.map .field)
  rw [hu'] at hrel
  cases hu : s.at? v (path.map .field) with
  | none =>
    rw [hu] at hrel
    cases hrel
  | some =>
    rw [hu] at hrel
    cases hrel with
    | some hcopy =>
      obtain ⟨d, e, hd, he, hdatum, -⟩ := hcopy.resolve ht
      refine ⟨d, e, ?_, he, hdatum.shape_eq⟩
      rw [Store.lookAt?, hu, Option.map_some, hd]

theorem lookAt?_append {path rest : List Feature} (h : s.at? v (path.map .field) = some a) :
  s.lookAt? v (path ++ rest) = s.lookAt? a rest
  := by
  rw [lookAt?, map_append, at?_append, h]
  rfl

section Twice

variable {m : Store} {u : Value} {ren' : Renaming} {left right path : List Feature}
variable (hm : s.Mirrored ren m) (hvu : s.ValueCopy ren m v u) (ht : m.Mirrored ren' t) (huw : m.ValueCopy ren' t u w)

include hm hvu ht huw

theorem lookAt?_of_copies (h : t.lookAt? w path = some a) :
  ∃ d e, s.lookAt? v path = some (.datum d) ∧ a = .datum e ∧ t.datumShape e = s.datumShape d
  := by
  obtain ⟨_, e, hd', he, hshape⟩ := huw.lookAt? ht h
  obtain ⟨d, _, hd, ⟨⟩, hshape'⟩ := hvu.lookAt? hm hd'
  exact ⟨d, e, hd, he, hshape.trans hshape'⟩

theorem at?_of_copies (h : s.at? v (path.map .field) = some a) :
  ∃ b, t.at? w (path.map .field) = some b ∧ b.Within t
  := by
  obtain ⟨c, hc, -⟩ := hvu.at?_some hm h
  obtain ⟨b, hb, hcb⟩ := huw.at?_some ht hc
  exact ⟨b, hb, hcb.within ht⟩

/-- Parts that are equal are equal in a copy of a copy, if they have their procedures in common. -/
theorem equals_of_copies (hs : s.Regular) (hv : v.Within s) (hfree : s.NaNFree v)
    (hwf : t.WellFormed) (ha : s.at? v (left.map .field) = some a)
    (hb : s.at? v (right.map .field) = some b) (hab : s.equals a b = .ok true)
    (hcommon : s.Common v left right) :
  ∃ a' b', t.at? w (left.map .field) = some a' ∧ t.at? w (right.map .field) = some b' ∧ t.equals a' b' = .ok true
  := by
  obtain ⟨a', ha', hwithin⟩ := at?_of_copies hm hvu ht huw ha
  obtain ⟨b', hb', hwithin'⟩ := at?_of_copies hm hvu ht huw hb
  refine ⟨a', b', ha', hb', ?_⟩
  have hdistinct : t.Distinct a' := by
    intro _ _ hid
    rw [← lookAt?_append ha'] at hid
    obtain ⟨d, _, -, ⟨⟩, hshape⟩ := lookAt?_of_copies hm hvu ht huw hid
    obtain ⟨i, -, -, hfeatures⟩ := eq_record_of_shape hshape.symm
    rw [← hfeatures]
    exact hs.distinct i
  obtain ⟨hclash, hopen⟩ := found_of_equals hwf hdistinct hwithin hwithin'
  cases hanswer : t.equals a' b' with
  | error x =>
    obtain ⟨_, c, _, hc, hc', -, hx⟩ := hopen x hanswer
    rw [← lookAt?_append ha'] at hc
    rw [← lookAt?_append hb'] at hc'
    obtain ⟨-, e, -, rfl, -⟩ := lookAt?_of_copies hm hvu ht huw hc
    obtain ⟨-, _, -, rfl, -⟩ := lookAt?_of_copies hm hvu ht huw hc'
    rcases hx with hx | hx <;> cases hx
  | ok answer =>
    cases answer with
    | true => rfl
    | false =>
      obtain ⟨rest, _, _, hd', he', hdiffer⟩ := hclash hanswer
      rw [← lookAt?_append ha'] at hd'
      rw [← lookAt?_append hb'] at he'
      obtain ⟨d, _, hd, ⟨⟩, hshape⟩ := lookAt?_of_copies hm hvu ht huw hd'
      obtain ⟨e, _, he, ⟨⟩, hshape'⟩ := lookAt?_of_copies hm hvu ht huw he'
      rcases differ_of_shape_eq hshape hshape' hdiffer with hdiffer | ⟨c, hc, rfl, rfl⟩
      · have hreach := reaches_of_at? ha
        rw [lookAt?_append ha] at hd
        rw [lookAt?_append hb] at he
        have hfalse := (equals_eq_ok_false_iff hs (hs.within_of_reaches hv hreach)
          (hs.within_of_reaches hv (reaches_of_at? hb)) (hfree.of_reaches hreach)).mpr
          ⟨rest, d, e, hd, he, hdiffer⟩
        cases hab.symm.trans hfalse
      · -- the same procedure stands at the end of both paths, and its copy in one place
        have hconverge := ((hcommon rest c hc hd he).copy hm hvu).copy ht huw
        cases hd'.symm.trans (hconverge.lookAt?_eq.trans he')
        refine (not_differ_self ?_ hdiffer).elim
        rintro (x | _) rfl
        · cases eq_scalar_of_shape hshape.symm
          cases hc
        all_goals exact id

end Twice

/-- Parts of a value that are equal are equal in what arrives, if they have their procedures,
configurators and configurations in common. -/
theorem equals_importValue {p : Portable} (left right : List Feature) (hs : s.Regular)
    (hv : v.Within s) (hfree : s.NaNFree v) (hp : s.exportValue v = .ok p) (ht : t.Valid)
    (ha : s.at? v (left.map .field) = some a)
    (hb : s.at? v (right.map .field) = some b) (hab : s.equals a b = .ok true)
    (hcommon : s.Common v left right) :
  ∃ w a' b', (t.importValue p).1 = .ok w ∧
    (t.importValue p).2.at? w (left.map .field) = some a' ∧
    (t.importValue p).2.at? w (right.map .field) = some b' ∧
    (t.importValue p).2.equals a' b' = .ok true
  := by
  obtain ⟨-, -, _, hmirror, hcopy⟩ := valueCopy_exportValue hp
  obtain ⟨w, hw⟩ := hcopy.copyInto_ok hmirror t
  obtain ⟨_, hmirror', hcopy'⟩ := mirrored_copyInto hw
  have hwf := (valid_copyInto p.store p.value ht).2.wellFormed
  obtain ⟨a', b', hequal⟩ :=
    equals_of_copies hmirror hcopy hmirror' hcopy' hs hv hfree hwf ha hb hab hcommon
  exact ⟨w, a', b', hw, hequal⟩

/-- A procedure three times, the first two times in the same variable. -/
def threefold : Store where
  slots := #[.bound (.record 0), .bound (.scalar (.proc (.closure 0))), .bound (.scalar (.proc (.closure 0)))]
  records := #[.tuple none [.var 1, .var 1, .var 2]]
  procs := #[⟨[], .skip, []⟩]

theorem threefold_regular :
  threefold.Regular where
  toWellFormed := .of_no_link (by decide) (by decide)
  distinct
    | 0 => by decide
    | _ + 1 => by simp [record, threefold]

theorem threefold_nanFree :
  threefold.NaNFree (.var 0)
  := by
  apply nanFree_of_no_nan
  · simp [threefold, Scalar.IsNaN]
  · simp [threefold, Record.values, Record.tuple, Leaf.toValue, -mem_map]
  · simp

/-- In every store the first two copies are equal. -/
theorem equals_importValue_threefold :
  ∃ p, threefold.exportValue (.var 0) = .ok p ∧ ∀ t : Store, t.Valid →
    ∃ w a b, (t.importValue p).1 = .ok w ∧
      (t.importValue p).2.at? w [.field (.int32 0)] = some a ∧
      (t.importValue p).2.at? w [.field (.int32 1)] = some b ∧
      (t.importValue p).2.equals a b = .ok true
  := by
  have hok : (threefold.exportValue (.var 0)).isOk = true := by
    cbv
  cases hp : threefold.exportValue (.var 0) with
  | error => simp [hp, Except.toBool] at hok
  | ok p =>
    refine ⟨p, rfl, ?_⟩
    intro t ht
    refine equals_importValue [.int32 0] [.int32 1] threefold_regular (by cbv)
      threefold_nanFree hp ht rfl rfl (by cbv) ?_
    intro rest _ _ _ _
    exact ⟨[.int32 0], [.int32 1], rest, rfl, rfl, .inr ⟨1, 1, rfl, rfl, rfl⟩⟩

/-- The first one and the last one are equal, and their copies are not. -/
theorem importValue_separates_threefold :
  threefold.at? (.var 0) [.field (.int32 0)] = some (.var 1) ∧
  threefold.at? (.var 0) [.field (.int32 2)] = some (.var 2) ∧
  threefold.equals (.var 1) (.var 2) = .ok true ∧
  (do
    let p ← (threefold.exportValue (.var 0)).toOption
    let w ← (importValue {} p).1.toOption
    let a ← (importValue {} p).2.at? w [.field (.int32 0)]
    let b ← (importValue {} p).2.at? w [.field (.int32 2)]
    return (importValue {} p).2.equals a b) = some (.ok false)
  := by
  refine ⟨rfl, rfl, by cbv, by cbv⟩

end Store

end ActorLang
