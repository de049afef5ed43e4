import SymbolicCalculus.Proofs.TreeGrammar

/-!
# The depth at which reading stops

A node is read only at a level within the limit. An object is refused for its depth only if
it has a node below the last level, whatever else may be wrong with it. One that is read
under some limit is read as the same tree under every limit that is not below its depth, and
under the others it is refused for its depth.
-/

set_option autoImplicit false

namespace SymbolicCalculus

def ShapeError.IsDepth : ShapeError → Prop
  | .tooDeep _ => True
  | .inMember _ _ e => e.IsDepth
  | .inArg _ e => e.IsDepth
  | _ => False

namespace ObjectForm

/-! ## Objects inside one another -/

/-- The members of a node that hold one operand each. -/
def operandMembers : NodeType → List String
  | .binary op => [op.leftMember, op.rightMember]
  | .neg | .stmt => ["expr"]
  | _ => []

/-- An object stands in the place of an operand or an argument of the node. -/
inductive Operand (m inner : Members) : Prop
  | member {t : NodeType} {member : String} (htype : Json.lookup "type" m = some (.str t.name))
      (hmem : member ∈ operandMembers t) (h : Json.lookup member m = some (.obj inner))
  | argument {items : List Json} (htype : Json.lookup "type" m = some (.str NodeType.func.name))
      (hargs : Json.lookup "args" m = some (.arr items)) (h : .obj inner ∈ items)

/-- So many objects stand inside one another, this one being the outermost. The objects need
not be read as trees. -/
inductive Nests : Members → ℕ → Prop
  | root (m : Members) : Nests m 1
  | inside {m inner : Members} {n : ℕ} (h : Operand m inner) (hinner : Nests inner n) :
      Nests m (n + 1)

section
variable {limit limit' : ℤ} {levels levels' : ℕ} {m inner : Members} {x : Expr}

theorem Operand.exists_read (h : Operand m inner) (hx : read limit (levels + 1) m = .ok x) :
    ∃ y, read limit levels inner = .ok y ∧ y.depth < x.depth := by
  cases h with
  | @member t member htype hmem h =>
    rw [read_of_type (typeName_of_lookup t htype)] at hx
    cases t with
    | num => cases hmem
    | sym => cases hmem
    | func => cases hmem
    | binary op =>
      simp only [bind_eq_ok, treeMember_ok_iff, Except.ok.injEq] at hx
      obtain ⟨l, ⟨ml, hml, hl⟩, r, ⟨mr, hmr, hr⟩, rfl⟩ := hx
      simp only [operandMembers, List.mem_cons, List.not_mem_nil, or_false] at hmem
      rcases hmem with rfl | rfl
      · obtain rfl : ml = inner := by simpa [hml] using h
        exact ⟨l, hl, Nat.lt_succ_of_le (Nat.le_max_left ..)⟩
      · obtain rfl : mr = inner := by simpa [hmr] using h
        exact ⟨r, hr, Nat.lt_succ_of_le (Nat.le_max_right ..)⟩
    | neg =>
      simp only [bind_eq_ok, treeMember_ok_iff, Except.ok.injEq] at hx
      obtain ⟨u, ⟨mu, hmu, hu⟩, rfl⟩ := hx
      obtain rfl := List.mem_singleton.mp hmem
      obtain rfl : mu = inner := by simpa [hmu] using h
      exact ⟨u, hu, Nat.lt_succ_self _⟩
    | stmt =>
      simp only [bind_eq_ok, treeMember_ok_iff, Except.ok.injEq] at hx
      obtain ⟨u, ⟨mu, hmu, hu⟩, rfl⟩ := hx
      obtain rfl := List.mem_singleton.mp hmem
      obtain rfl : mu = inner := by simpa [hmu] using h
      exact ⟨u, hu, Nat.lt_succ_self _⟩
  | argument htype hargs h =>
    rw [read_of_type (typeName_of_lookup .func htype)] at hx
    simp only [bind_eq_ok, argsMember_ok_iff, Except.ok.injEq] at hx
    obtain ⟨name, _, args, ⟨given, harguments, hgiven⟩, rfl⟩ := hx
    rw [hargs] at harguments
    cases harguments with
    | array given =>
      obtain ⟨g, hg, hinner⟩ := List.mem_map.mp h
      cases hinner
      obtain ⟨a, ha, hread⟩ := exists_mem_of_forall₂ hgiven hg
      exact ⟨a, hread, Nat.lt_succ_of_le (Expr.depthAll_le_iff.mp le_rfl a ha)⟩

/-- No more objects stand inside one another than the tree is deep. -/
theorem Nests.le_depth {n : ℕ} (h : Nests m n) (hx : read limit levels m = .ok x) :
    n ≤ x.depth := by
  induction h generalizing levels x with
  | root m =>
    obtain ⟨levels, rfl⟩ := (readsAs_obj.mpr hx).levels_eq_succ
    obtain ⟨t, ht⟩ := exists_type_of_read hx
    have hpresent : x ≠ .missing := by
      rintro rfl
      rw [read_of_type (typeName_of_lookup t ht)] at hx
      cases t <;> simp [bind_eq_ok] at hx
    exact Expr.depth_pos hpresent
  | inside h _ ih =>
    obtain ⟨levels, rfl⟩ := (readsAs_obj.mpr hx).levels_eq_succ
    obtain ⟨y, hy, hlt⟩ := h.exists_read hx
    exact (ih hy).trans_lt hlt

/-! ## Refusals for depth -/

abbrev Blames {α : Type} (reason : Prop) (x : Except ShapeError α) : Prop :=
  FailsOnly (fun e => e.IsDepth → reason) x

section
variable {reason : Prop}

theorem blames_typeName : Blames reason (typeName m) := by
  unfold typeName
  split
  · exact .error False.elim
  · split_ifs
    · exact .error False.elim
    · exact .ok _
  · exact .error False.elim

theorem blames_textMember {type member : String} : Blames reason (textMember type member m) := by
  unfold textMember
  split
  · exact .error False.elim
  · split_ifs
    · exact .error False.elim
    · exact .ok _
  · exact .error False.elim

theorem blames_integerMember : Blames reason (integerMember m) := by
  unfold integerMember
  split
  · exact .error False.elim
  · exact .error False.elim
  · split
    · exact .ok _
    · exact .error False.elim
  · split
    · exact .error False.elim
    · split_ifs
      · exact .ok _
      · exact .error False.elim
  · exact .error False.elim

theorem blames_treeMember {type member : String}
    (h : ∀ inner, Json.lookup member m = some (.obj inner) → Blames reason (read limit levels inner)) :
    Blames reason (treeMember (read limit levels) type member m) := by
  unfold treeMember
  split
  · exact .error False.elim
  · next inner hinner => exact (h inner hinner).mapError
  · exact .error False.elim

theorem blames_readArgs {items : List Json} {index : ℕ}
    (h : ∀ inner, .obj inner ∈ items → Blames reason (read limit levels inner)) :
    Blames reason (readArgs (read limit levels) index items) := by
  induction items generalizing index with
  | nil => exact .ok []
  | cons v rest ih =>
    cases v with
    | obj inner =>
      have hrest := @ih (index + 1) fun inner hmem => h inner (List.mem_cons_of_mem _ hmem)
      have hfirst : Blames reason ((read limit levels inner).mapError (.inArg index)) :=
        (h inner (List.mem_cons_self ..)).mapError
      exact hfirst.bind fun a => hrest.bind fun as => .ok (a :: as)
    | _ => exact .error False.elim

theorem blames_argsMember
    (h : ∀ inner items, Json.lookup "args" m = some (.arr items) → .obj inner ∈ items →
      Blames reason (read limit levels inner)) :
    Blames reason (argsMember (read limit levels) m) := by
  unfold argsMember
  split
  · exact .ok []
  · exact .ok []
  · next items hitems => exact blames_readArgs fun inner hmem => h inner items hitems hmem
  · exact .error False.elim

theorem blames_unknown (hm : ∀ t : NodeType, Json.lookup "type" m ≠ some (.str t.name)) :
    Blames reason (read limit (levels + 1) m) := by
  rw [read]
  cases htype : typeName m with
  | error e => exact .error (blames_typeName e htype)
  | ok type =>
    have hnone : NodeType.ofName? type = none := by
      cases ht : NodeType.ofName? type with
      | none => rfl
      | some t =>
        exact absurd (by rw [lookup_of_typeName htype, NodeType.name_of_ofName? ht]) (hm t)
    simp only [bind, Except.bind, hnone]
    exact .error False.elim

end

/-- What is refused for its depth has a node below the levels that were left. -/
theorem nests_of_read {e : ShapeError} (h : read limit levels m = .error e) (he : e.IsDepth) :
    Nests m (levels + 1) := by
  induction levels generalizing m e with
  | zero => exact .root m
  | succ levels ih =>
    have hinside {inner : Members} (ho : Operand m inner) :
        Blames (Nests m (levels + 1 + 1)) (read limit levels inner) :=
      fun e' he' hdepth => .inside ho (ih he' hdepth)
    suffices hread : Blames (Nests m (levels + 1 + 1)) (read limit (levels + 1) m) from
      hread e h he
    by_cases hknown : ∃ t : NodeType, Json.lookup "type" m = some (.str t.name)
    · obtain ⟨t, ht⟩ := hknown
      rw [read_of_type (typeName_of_lookup t ht)]
      cases t with
      | num => exact blames_integerMember.bind fun v => .ok _
      | sym => exact blames_textMember.bind fun name => .ok _
      | binary op =>
        refine (blames_treeMember fun inner h => ?_).bind fun l =>
          (blames_treeMember fun inner h => ?_).bind fun r => .ok _
        · exact hinside (.member ht (by simp [operandMembers]) h)
        · exact hinside (.member ht (by simp [operandMembers]) h)
      | neg =>
        refine (blames_treeMember fun inner h => ?_).bind fun u => .ok _
        exact hinside (.member ht (by simp [operandMembers]) h)
      | stmt =>
        refine (blames_treeMember fun inner h => ?_).bind fun u => .ok _
        exact hinside (.member ht (by simp [operandMembers]) h)
      | func =>
        refine blames_textMember.bind fun name =>
          (blames_argsMember fun inner items hargs h => ?_).bind fun args => .ok _
        exact hinside (.argument ht hargs h)
    · exact blames_unknown fun t ht => hknown ⟨t, ht⟩

/-! ## Other limits -/

def OkOrDeep {α : Type} (x : Except ShapeError α) (a : α) : Prop :=
  x = .ok a ∨ ∃ e, x = .error e ∧ e.IsDepth

section
variable {α β : Type} {a : α}

theorem OkOrDeep.bind {b : β} {x : Except ShapeError α} {f : α → Except ShapeError β}
    (hx : OkOrDeep x a) (hf : OkOrDeep (f a) b) : OkOrDeep (x >>= f) b := by
  rcases hx with rfl | ⟨e, rfl, he⟩
  · exact hf
  · exact .inr ⟨e, rfl, he⟩

theorem OkOrDeep.mapError {x : Except ShapeError α} {f : ShapeError → ShapeError}
    (hx : OkOrDeep x a) (hf : ∀ e, e.IsDepth → (f e).IsDepth) : OkOrDeep (x.mapError f) a := by
  rcases hx with rfl | ⟨e, rfl, he⟩
  · exact .inl rfl
  · exact .inr ⟨f e, rfl, hf e he⟩

theorem okOrDeep_treeMember {type member : String}
    (hm : Json.lookup member m = some (.obj inner)) (h : OkOrDeep (read limit levels inner) x) :
    OkOrDeep (treeMember (read limit levels) type member m) x := by
  simp only [treeMember, hm]
  exact h.mapError fun _ he => he

theorem okOrDeep_readArgs {given : List Members} {args : List Expr} {index : ℕ}
    (h : List.Forall₂ (fun g a => OkOrDeep (read limit levels g) a) given args) :
    OkOrDeep (readArgs (read limit levels) index (given.map .obj)) args := by
  induction h generalizing index with
  | nil => exact .inl rfl
  | cons hfirst _ ih =>
    refine OkOrDeep.bind (hfirst.mapError fun _ he => he) ?_
    exact OkOrDeep.bind ih (.inl rfl)

theorem okOrDeep_argsMember {given : List Members} {args : List Expr}
    (hm : Arguments (Json.lookup "args" m) given)
    (h : List.Forall₂ (fun g a => OkOrDeep (read limit levels g) a) given args) :
    OkOrDeep (argsMember (read limit levels) m) args := by
  unfold argsMember
  generalize Json.lookup "args" m = v at hm
  cases hm with
  | absent =>
    cases h
    exact .inl rfl
  | null =>
    cases h
    exact .inl rfl
  | array given => exact okOrDeep_readArgs h

end

/-- With another number of levels the same tree is read, or the levels do not suffice. -/
theorem okOrDeep_read (h : read limit levels m = .ok x) (limit' : ℤ) (levels' : ℕ) :
    OkOrDeep (read limit' levels' m) x := by
  induction levels generalizing m x levels' with
  | zero => cases h
  | succ levels ih =>
    cases levels' with
    | zero => exact .inr ⟨.tooDeep limit', rfl, trivial⟩
    | succ levels' =>
      obtain ⟨t, ht⟩ := exists_type_of_read h
      rw [read_of_type (typeName_of_lookup t ht)] at h ⊢
      cases t with
      | num => exact .inl h
      | sym => exact .inl h
      | binary op =>
        simp only [bind_eq_ok, treeMember_ok_iff, Except.ok.injEq] at h
        obtain ⟨l, ⟨ml, hml, hl⟩, r, ⟨mr, hmr, hr⟩, rfl⟩ := h
        exact (okOrDeep_treeMember hml (ih hl levels')).bind
          ((okOrDeep_treeMember hmr (ih hr levels')).bind (.inl rfl))
      | neg =>
        simp only [bind_eq_ok, treeMember_ok_iff, Except.ok.injEq] at h
        obtain ⟨u, ⟨mu, hmu, hu⟩, rfl⟩ := h
        exact (okOrDeep_treeMember hmu (ih hu levels')).bind (.inl rfl)
      | stmt =>
        simp only [bind_eq_ok, treeMember_ok_iff, Except.ok.injEq] at h
        obtain ⟨u, ⟨mu, hmu, hu⟩, rfl⟩ := h
        exact (okOrDeep_treeMember hmu (ih hu levels')).bind (.inl rfl)
      | func =>
        simp only [bind_eq_ok, argsMember_ok_iff, Except.ok.injEq] at h
        obtain ⟨name, hname, args, ⟨given, hgiven, hargs⟩, rfl⟩ := h
        have hread := hargs.imp fun g a hg => ih hg levels'
        exact OkOrDeep.bind (.inl hname) ((okOrDeep_argsMember hgiven hread).bind (.inl rfl))

end

end ObjectForm

/-! ## Whole trees -/

namespace Expr
open ObjectForm (Members Nests)

variable {limit limit' : ℤ} {m : Members} {e : Expr}

theorem depth_le_of_ofMembers (h : ofMembers limit m = .ok e) : (e.depth : ℤ) ≤ limit := by
  obtain ⟨hread, he⟩ := ofMembers_eq_ok.mp h
  have hpos := depth_pos he.ne_missing
  have hle := ObjectForm.depth_le_of_read hread
  omega

theorem read_of_ofMembers {err : ShapeError} (h : ofMembers limit m = .error (.shape err)) :
    ObjectForm.read limit limit.toNat m = .error err := by
  unfold ofMembers at h
  cases hread : ObjectForm.read limit limit.toNat m with
  | error err' =>
    rw [hread] at h
    cases h
    rfl
  | ok x =>
    rw [hread] at h
    cases hvalid : validate x with
    | error err' => simp [hvalid, Except.mapError, bind, Except.bind] at h
    | ok u => simp [hvalid, Except.mapError, bind, Except.bind] at h

/-- Only an object with nodes below the limit is refused for its depth. -/
theorem nests_of_ofMembers {err : ShapeError} (h : ofMembers limit m = .error (.shape err))
    (herr : err.IsDepth) : Nests m (limit.toNat + 1) :=
  ObjectForm.nests_of_read (read_of_ofMembers h) herr

/-- Where the depth of a tree is the only thing that can be wrong with it, the limit decides. -/
theorem ofMembers_of_ok (h : ofMembers limit m = .ok e) (limit' : ℤ) :
    ((e.depth : ℤ) ≤ limit' → ofMembers limit' m = .ok e) ∧
      (limit' < e.depth → ∃ err, ofMembers limit' m = .error (.shape err) ∧ err.IsDepth) := by
  obtain ⟨hread, he⟩ := ofMembers_eq_ok.mp h
  rcases ObjectForm.okOrDeep_read hread limit' limit'.toNat with hok | ⟨err, herr, hdepth⟩
  · refine ⟨fun _ => ofMembers_eq_ok.mpr ⟨hok, he⟩, fun hlt => ?_⟩
    have hle := depth_le_of_ofMembers (ofMembers_eq_ok.mpr ⟨hok, he⟩)
    omega
  · refine ⟨fun hle => ?_, fun _ => ⟨err, ?_, hdepth⟩⟩
    · have hlt := (ObjectForm.nests_of_read herr hdepth).le_depth hread
      omega
    · rw [ofMembers, herr]
      rfl

end Expr

end SymbolicCalculus
