import Mathlib.Data.List.Forall2
import SymbolicCalculus.Expr.ObjectForm
import SymbolicCalculus.Proofs.DecimalText
import SymbolicCalculus.Proofs.JsonText
import SymbolicCalculus.Proofs.Outcome
import SymbolicCalculus.Proofs.WellFormed

/-!
# Trees and their object forms

Every tree has an object form, and reading the form back gives that tree or nothing.
It gives the tree exactly if the tree is well formed and not deeper than the limit. The
same holds of the text of the object form, which may be nested too deeply for the text
reader only where the tree is too deep anyway.
-/

set_option autoImplicit false

namespace SymbolicCalculus

/-! ## Depth -/

namespace Expr

mutual
/-- How many nodes stand above one another. A place where nothing was given is no node. -/
def depth : Expr → Nat
  | .missing => 0
  | .num _ | .sym _ => 1
  | .binary _ l r => max (depth l) (depth r) + 1
  | .neg x | .stmt x => depth x + 1
  | .call _ args => depthAll args + 1
def depthAll : List Expr → Nat
  | [] => 0
  | a :: as => max (depth a) (depthAll as)
end

theorem depthAll_le_iff {args : List Expr} {n : Nat} :
    depthAll args ≤ n ↔ ∀ a ∈ args, depth a ≤ n := by
  induction args with
  | nil => simp [depthAll]
  | cons a as ih => rw [depthAll, Nat.max_le, ih, List.forall_mem_cons]

theorem toJsonAll_eq_map (args : List Expr) : toJsonAll args = args.map toJson := by
  induction args with
  | nil => rfl
  | cons a as ih => rw [toJsonAll, ih, List.map_cons]

end Expr

theorem Unary.name_ne_empty (f : Unary) : f.name ≠ "" := by
  cases f <;> decide

/-! ## Reading one node -/

namespace ObjectForm

def ReadsAs (limit : Int) (levels : Nat) (v : Json) (x : Expr) : Prop :=
  ∃ inner, v = .obj inner ∧ read limit levels inner = .ok x

section
variable {limit : Int} {levels : Nat} {x : Expr} {members : Members}

theorem not_readsAs_null : ¬ ReadsAs limit levels .null x := by
  rintro ⟨inner, h, _⟩
  cases h

theorem textMember_eq_ok {type member s text : String}
    (h : Json.lookup member members = some (.str s)) :
    textMember type member members = .ok text ↔ s ≠ "" ∧ s = text := by
  by_cases hs : s = ""
  · simp [textMember, h, hs]
  · simp [textMember, h, hs]

theorem treeMember_eq_ok {type member : String} {v : Json}
    (h : Json.lookup member members = some v) :
    treeMember (read limit levels) type member members = .ok x ↔ ReadsAs limit levels v x := by
  cases v with
  | obj inner => simp [treeMember, h, mapError_eq_ok, ReadsAs]
  | _ => simp [treeMember, h, ReadsAs]

theorem readArgs_eq_ok {index : Nat} {items : List Json} {args : List Expr} :
    readArgs (read limit levels) index items = .ok args ↔
      List.Forall₂ (ReadsAs limit levels) items args := by
  induction items generalizing index args with
  | nil => simp [readArgs, eq_comm]
  | cons v rest ih =>
    cases v with
    | obj inner =>
      simp only [readArgs, bind_eq_ok, mapError_eq_ok, ih, Except.ok.injEq,
        List.forall₂_cons_left_iff]
      constructor
      · rintro ⟨a, ha, as, has, rfl⟩
        exact ⟨a, as, ⟨inner, rfl, ha⟩, has, rfl⟩
      · rintro ⟨a, as, ⟨inner', hinner, ha⟩, has, rfl⟩
        cases hinner
        exact ⟨a, ha, as, has, rfl⟩
    | _ => simp [readArgs, List.forall₂_cons_left_iff, ReadsAs]

/-! ## What is read of each object form -/

theorem ReadsAs.levels_eq_succ {v : Json} (h : ReadsAs limit levels v x) :
    ∃ below, levels = below + 1 := by
  cases levels with
  | zero =>
    obtain ⟨inner, _, h⟩ := h
    cases h
  | succ below => exact ⟨below, rfl⟩

theorem readsAs_obj : ReadsAs limit levels (.obj members) x ↔ read limit levels members = .ok x := by
  simp [ReadsAs]

theorem read_of_type {t : NodeType} : typeName members = .ok t.name →
    read limit (levels + 1) members =
      match t with
      | .num => integerMember members >>= fun v => .ok (.num v)
      | .sym => textMember t.name "name" members >>= fun name => .ok (.sym name)
      | .binary op =>
        treeMember (read limit levels) t.name op.leftMember members >>= fun l =>
          treeMember (read limit levels) t.name op.rightMember members >>= fun r =>
            .ok (.binary op l r)
      | .neg => treeMember (read limit levels) t.name "expr" members >>= fun u => .ok (.neg u)
      | .stmt => treeMember (read limit levels) t.name "expr" members >>= fun u => .ok (.stmt u)
      | .func =>
        textMember t.name "name" members >>= fun name =>
          argsMember (read limit levels) members >>= fun args => .ok (.call name args) := by
  intro h
  rw [read, h]
  cases t with
  | binary op => cases op <;> rfl
  | _ => rfl

theorem readsAs_num {v : Int64} :
    ReadsAs limit (levels + 1) (Expr.num v).toJson x ↔ .num v = x := by
  refine readsAs_obj.trans ?_
  generalize hmembers :
    [("type", Json.str "num"), ("value", .str (Decimal.ofInt v.toInt))] = members
  have htype : typeName members = .ok NodeType.num.name := by
    subst hmembers
    rfl
  have hvalue : integerMember members = .ok v := by
    subst hmembers
    simp [integerMember, Json.lookup, Decimal.toWord?_ofInt]
  simp only [read_of_type htype, hvalue, bind_eq_ok, Except.ok.injEq, exists_eq_left']

theorem readsAs_sym {name : String} :
    ReadsAs limit (levels + 1) (Expr.sym name).toJson x ↔ name ≠ "" ∧ .sym name = x := by
  refine readsAs_obj.trans ?_
  generalize hmembers : [("name", Json.str name), ("type", .str "sym")] = members
  have htype : typeName members = .ok NodeType.sym.name := by
    subst hmembers
    rfl
  have hname : Json.lookup "name" members = some (.str name) := by
    subst hmembers
    rfl
  simp only [read_of_type htype, bind_eq_ok, Except.ok.injEq, exists_eq_left',
    textMember_eq_ok hname, and_assoc, exists_and_left]

theorem readsAs_binary {op : Operator} {l r : Expr} :
    ReadsAs limit (levels + 1) (Expr.binary op l r).toJson x ↔
      ∃ l', ReadsAs limit levels l.toJson l' ∧ ∃ r', ReadsAs limit levels r.toJson r' ∧
        .binary op l' r' = x := by
  refine readsAs_obj.trans ?_
  generalize hmembers : [(op.leftMember, l.toJson), (op.rightMember, r.toJson),
    ("type", Json.str (NodeType.binary op).name)] = members
  have htype : typeName members = .ok (NodeType.binary op).name := by
    subst hmembers
    cases op <;> rfl
  have hl : Json.lookup op.leftMember members = some l.toJson := by
    subst hmembers
    cases op <;> rfl
  have hr : Json.lookup op.rightMember members = some r.toJson := by
    subst hmembers
    cases op <;> rfl
  simp only [read_of_type htype, bind_eq_ok, Except.ok.injEq, treeMember_eq_ok hl,
    treeMember_eq_ok hr]

theorem readsAs_neg {u : Expr} :
    ReadsAs limit (levels + 1) (Expr.neg u).toJson x ↔
      ∃ u', ReadsAs limit levels u.toJson u' ∧ .neg u' = x := by
  refine readsAs_obj.trans ?_
  generalize hmembers : [("expr", u.toJson), ("type", Json.str "neg")] = members
  have htype : typeName members = .ok NodeType.neg.name := by
    subst hmembers
    rfl
  have hexpr : Json.lookup "expr" members = some u.toJson := by
    subst hmembers
    rfl
  simp only [read_of_type htype, bind_eq_ok, Except.ok.injEq, treeMember_eq_ok hexpr]

theorem readsAs_stmt {u : Expr} :
    ReadsAs limit (levels + 1) (Expr.stmt u).toJson x ↔
      ∃ u', ReadsAs limit levels u.toJson u' ∧ .stmt u' = x := by
  refine readsAs_obj.trans ?_
  generalize hmembers : [("expr", u.toJson), ("type", Json.str "stmt")] = members
  have htype : typeName members = .ok NodeType.stmt.name := by
    subst hmembers
    rfl
  have hexpr : Json.lookup "expr" members = some u.toJson := by
    subst hmembers
    rfl
  simp only [read_of_type htype, bind_eq_ok, Except.ok.injEq, treeMember_eq_ok hexpr]

theorem readsAs_call {name : String} {args : List Expr} :
    ReadsAs limit (levels + 1) (Expr.call name args).toJson x ↔
      name ≠ "" ∧ ∃ args', List.Forall₂ (ReadsAs limit levels) (args.map Expr.toJson) args' ∧
        .call name args' = x := by
  refine readsAs_obj.trans ?_
  rw [Expr.toJsonAll_eq_map]
  generalize hmembers : [("args", Json.arr (args.map Expr.toJson)), ("name", .str name),
    ("type", .str "func")] = members
  have htype : typeName members = .ok NodeType.func.name := by
    subst hmembers
    rfl
  have hname : Json.lookup "name" members = some (.str name) := by
    subst hmembers
    rfl
  have hargs : argsMember (read limit levels) members =
      readArgs (read limit levels) 0 (args.map Expr.toJson) := by
    subst hmembers
    rfl
  simp only [read_of_type htype, hargs, bind_eq_ok, Except.ok.injEq, exists_eq_left',
    textMember_eq_ok hname, readArgs_eq_ok, and_assoc, exists_and_left]

/-! ## What is read is what was written -/

theorem forall₂_readsAs_sound {args args' : List Expr}
    (ih : ∀ a ∈ args, ∀ y, ReadsAs limit levels a.toJson y → y = a ∧ a.depth ≤ levels)
    (h : List.Forall₂ (ReadsAs limit levels) (args.map Expr.toJson) args') :
    args' = args ∧ ∀ a ∈ args, a.depth ≤ levels := by
  induction args generalizing args' with
  | nil => simpa using h
  | cons a as iha =>
    rw [List.map_cons, List.forall₂_cons_left_iff] at h
    obtain ⟨a', as', ha, has, rfl⟩ := h
    obtain ⟨rfl, hdepth⟩ := ih a (by simp) a' ha
    obtain ⟨rfl, hdepths⟩ := iha (fun b hb => ih b (by simp [hb])) has
    exact ⟨rfl, List.forall_mem_cons.mpr ⟨hdepth, hdepths⟩⟩

theorem forall₂_readsAs_complete {args : List Expr}
    (h : ∀ a ∈ args, ReadsAs limit levels a.toJson a) :
    List.Forall₂ (ReadsAs limit levels) (args.map Expr.toJson) args := by
  rw [List.forall₂_map_left_iff, List.forall₂_same]
  exact h

/-- Nothing but the tree itself is read from its object form, and only if it is not too
deep. -/
theorem readsAs_sound {e : Expr} (h : ReadsAs limit levels e.toJson x) :
    x = e ∧ e.depth ≤ levels := by
  induction e generalizing levels x with
  | missing => exact (not_readsAs_null (by simpa [Expr.toJson] using h)).elim
  | num v =>
    obtain ⟨levels, rfl⟩ := h.levels_eq_succ
    obtain rfl := readsAs_num.mp h
    exact ⟨rfl, by simp [Expr.depth]⟩
  | sym name =>
    obtain ⟨levels, rfl⟩ := h.levels_eq_succ
    obtain ⟨_, rfl⟩ := readsAs_sym.mp h
    exact ⟨rfl, by simp [Expr.depth]⟩
  | binary op l r ihl ihr =>
    obtain ⟨levels, rfl⟩ := h.levels_eq_succ
    obtain ⟨l', hl, r', hr, rfl⟩ := readsAs_binary.mp h
    obtain ⟨rfl, hdl⟩ := ihl hl
    obtain ⟨rfl, hdr⟩ := ihr hr
    exact ⟨rfl, Nat.succ_le_succ (Nat.max_le.mpr ⟨hdl, hdr⟩)⟩
  | neg u ih =>
    obtain ⟨levels, rfl⟩ := h.levels_eq_succ
    obtain ⟨u', hu, rfl⟩ := readsAs_neg.mp h
    obtain ⟨rfl, hd⟩ := ih hu
    exact ⟨rfl, Nat.succ_le_succ hd⟩
  | call name args ih =>
    obtain ⟨levels, rfl⟩ := h.levels_eq_succ
    obtain ⟨_, args', hargs, rfl⟩ := readsAs_call.mp h
    obtain ⟨rfl, hd⟩ := forall₂_readsAs_sound (fun a ha y hy => ih a ha hy) hargs
    exact ⟨rfl, Nat.succ_le_succ (Expr.depthAll_le_iff.mpr hd)⟩
  | stmt u ih =>
    obtain ⟨levels, rfl⟩ := h.levels_eq_succ
    obtain ⟨u', hu, rfl⟩ := readsAs_stmt.mp h
    obtain ⟨rfl, hd⟩ := ih hu
    exact ⟨rfl, Nat.succ_le_succ hd⟩

theorem exists_below {n : Nat} (h : n + 1 ≤ levels) : ∃ below, levels = below + 1 ∧ n ≤ below := by
  obtain ⟨k, rfl⟩ := Nat.exists_eq_add_of_le' h
  exact ⟨k + n, rfl, Nat.le_add_left n k⟩

theorem readsAs_complete {e : Expr} (he : e.WellFormed) (h : e.depth ≤ levels) :
    ReadsAs limit levels e.toJson e := by
  induction he generalizing levels with
  | num v =>
    obtain ⟨levels, rfl, _⟩ := exists_below h
    exact readsAs_num.mpr rfl
  | sym hname =>
    obtain ⟨levels, rfl, _⟩ := exists_below h
    exact readsAs_sym.mpr ⟨hname, rfl⟩
  | binary op _ _ ihl ihr =>
    obtain ⟨levels, rfl, hbelow⟩ := exists_below h
    obtain ⟨hl, hr⟩ := Nat.max_le.mp hbelow
    exact readsAs_binary.mpr ⟨_, ihl hl, _, ihr hr, rfl⟩
  | neg _ ih =>
    obtain ⟨levels, rfl, hbelow⟩ := exists_below h
    exact readsAs_neg.mpr ⟨_, ih hbelow, rfl⟩
  | pi =>
    obtain ⟨levels, rfl, _⟩ := exists_below h
    exact readsAs_call.mpr ⟨by decide, [], .nil, rfl⟩
  | unary f _ ih =>
    obtain ⟨levels, rfl, hbelow⟩ := exists_below h
    have hu := Expr.depthAll_le_iff.mp hbelow
    refine readsAs_call.mpr ⟨f.name_ne_empty, _, forall₂_readsAs_complete ?_, rfl⟩
    simpa using ih (hu _ (by simp))
  | pow _ _ ihb ihe =>
    obtain ⟨levels, rfl, hbelow⟩ := exists_below h
    have hargs := Expr.depthAll_le_iff.mp hbelow
    refine readsAs_call.mpr ⟨by decide, _, forall₂_readsAs_complete ?_, rfl⟩
    simpa using ⟨ihb (hargs _ (by simp)), ihe (hargs _ (by simp))⟩
  | stmt _ ih =>
    obtain ⟨levels, rfl, hbelow⟩ := exists_below h
    exact readsAs_stmt.mpr ⟨_, ih hbelow, rfl⟩

end

end ObjectForm

/-! ## The whole tree -/

namespace Expr

theorem ofMembers_eq_ok {limit : Int} {members : ObjectForm.Members} {x : Expr} :
    ofMembers limit members = .ok x ↔
      ObjectForm.read limit limit.toNat members = .ok x ∧ x.WellFormed := by
  simp only [ofMembers, bind_eq_ok, mapError_eq_ok, Except.ok.injEq]
  constructor
  · rintro ⟨y, hread, _, hvalid, rfl⟩
    exact ⟨hread, validate_eq_ok_iff.mp hvalid⟩
  · rintro ⟨hread, hvalid⟩
    exact ⟨x, hread, (), validate_eq_ok_iff.mpr hvalid, rfl⟩

theorem exists_members {e : Expr} (he : e ≠ .missing) : ∃ members, e.toJson = .obj members := by
  cases e with
  | missing => exact (he rfl).elim
  | _ => exact ⟨_, by rw [toJson]⟩

theorem depth_pos {e : Expr} (he : e ≠ .missing) : 0 < e.depth := by
  cases e with
  | missing => exact (he rfl).elim
  | _ => simp [depth]

/-- Reading the object form of a tree gives that tree, or nothing if it has a defect or is
deeper than the limit. -/
theorem ofMembers_toJson {e x : Expr} {limit : Int} {members : ObjectForm.Members}
    (he : e ≠ .missing) (hmembers : e.toJson = .obj members) :
    ofMembers limit members = .ok x ↔ x = e ∧ validate e = .ok () ∧ (e.depth : Int) ≤ limit := by
  have hpos := depth_pos he
  have hdepth : e.depth ≤ limit.toNat ↔ (e.depth : Int) ≤ limit := by omega
  rw [ofMembers_eq_ok, validate_eq_ok_iff, ← ObjectForm.readsAs_obj, ← hmembers, ← hdepth]
  constructor
  · rintro ⟨hread, hvalid⟩
    obtain ⟨rfl, hd⟩ := ObjectForm.readsAs_sound hread
    exact ⟨rfl, hvalid, hd⟩
  · rintro ⟨rfl, hvalid, hd⟩
    exact ⟨ObjectForm.readsAs_complete hvalid hd, hvalid⟩

/-! ## The text of the object form -/

theorem plain_toJson (e : Expr) : Json.Plain e.toJson := by
  induction e with
  | missing => rw [toJson]; exact .null
  | num v => rw [toJson]; exact .obj (by simp [Json.Plain.str])
  | sym name => rw [toJson]; exact .obj (by simp [Json.Plain.str])
  | binary op l r ihl ihr => rw [toJson]; exact .obj (by simp [ihl, ihr, Json.Plain.str])
  | neg x ih => rw [toJson]; exact .obj (by simp [ih, Json.Plain.str])
  | call name args ih =>
    have hargs : Json.Plain (.arr (args.map toJson)) := .arr (by simpa using ih)
    rw [toJson, toJsonAll_eq_map]
    exact .obj (by simp [hargs, Json.Plain.str])
  | stmt x ih => rw [toJson]; exact .obj (by simp [ih, Json.Plain.str])

theorem itemsHeight_le {items : List Json} {n : Nat} (h : ∀ v ∈ items, v.height ≤ n) :
    Json.itemsHeight items ≤ n := by
  induction items with
  | nil => exact Nat.zero_le n
  | cons v rest ih =>
    rw [Json.itemsHeight, Nat.max_le]
    exact ⟨h v (by simp), ih fun w hw => h w (by simp [hw])⟩

theorem height_toJson_le (e : Expr) : e.toJson.height ≤ 2 * e.depth := by
  induction e with
  | missing => simp [toJson, Json.height]
  | num v => simp [toJson, Json.height, Json.membersHeight, depth]
  | sym name => simp [toJson, Json.height, Json.membersHeight, depth]
  | binary op l r ihl ihr =>
    simp only [toJson, Json.height, Json.membersHeight, depth]
    omega
  | neg x ih =>
    simp only [toJson, Json.height, Json.membersHeight, depth]
    omega
  | call name args ih =>
    have hitems : Json.itemsHeight (args.map toJson) ≤ 2 * depthAll args := by
      refine itemsHeight_le fun v hv => ?_
      obtain ⟨a, ha, rfl⟩ := List.mem_map.mp hv
      have hdepth := depthAll_le_iff.mp (Nat.le_refl (depthAll args)) a ha
      have := ih a ha
      omega
    simp only [toJson, toJsonAll_eq_map, Json.height, Json.membersHeight, depth]
    omega
  | stmt x ih =>
    simp only [toJson, Json.height, Json.membersHeight, depth]
    omega

theorem ofText_text {e : Expr} {limit : Int} {members : ObjectForm.Members}
    (hmembers : e.toJson = .obj members) :
    ofText limit e.toJson.text =
      if e.toJson.height ≤ Json.nestingLimit then ofMembers limit members else .error .malformed := by
  have hfinite : Json.membersFinite members = true := by
    have h := (plain_toJson e).isFinite
    rwa [hmembers, Json.isFinite] at h
  rw [ofText, Json.text, String.toList_ofList, Json.parse?_chars (plain_toJson e)]
  by_cases hheight : e.toJson.height ≤ Json.nestingLimit
  · rw [if_pos hheight, if_pos hheight, hmembers]
    exact if_pos hfinite
  · rw [if_neg hheight, if_neg hheight]

theorem toText_eq {e : Expr} (he : e ≠ .missing) : e.toText = .ok e.toJson.text := by
  cases e with
  | missing => exact (he rfl).elim
  | _ => rfl

/-- The text of a tree is read back under the same conditions as its object form: text that
is nested too deeply to be read belongs to a tree that is too deep. -/
theorem ofText_toText {e x : Expr} (he : e ≠ .missing) :
    ofText defaultDepth e.toJson.text = .ok x ↔
      x = e ∧ validate e = .ok () ∧ (e.depth : Int) ≤ defaultDepth := by
  obtain ⟨members, hmembers⟩ := exists_members he
  rw [ofText_text hmembers]
  by_cases hheight : e.toJson.height ≤ Json.nestingLimit
  · rw [if_pos hheight, ofMembers_toJson he hmembers]
  · rw [if_neg hheight]
    have hlarge : ¬ (e.depth : Int) ≤ defaultDepth := by
      have := height_toJson_le e
      have hlimit : Json.nestingLimit = 10000 := rfl
      have hdefault : defaultDepth = 512 := rfl
      omega
    simp [hlarge]

end Expr

/-- Writing and reading agree, for trees of any shape: the object form of a tree and the
text of its object form are read as that tree exactly if it has no defect and is not deeper
than the limit, and are refused otherwise. -/
theorem read_written (e : Expr) (he : e ≠ .missing) :
    (∃ members, e.toJson = .obj members ∧ ∀ (limit : Int) (x : Expr),
      Expr.ofMembers limit members = .ok x ↔
        x = e ∧ validate e = .ok () ∧ (e.depth : Int) ≤ limit) ∧
    (∃ text, e.toText = .ok text ∧ ∀ x : Expr,
      Expr.ofText defaultDepth text = .ok x ↔
        x = e ∧ validate e = .ok () ∧ (e.depth : Int) ≤ defaultDepth) := by
  obtain ⟨members, hmembers⟩ := Expr.exists_members he
  refine ⟨⟨members, hmembers, fun limit x => Expr.ofMembers_toJson he hmembers⟩, ?_⟩
  exact ⟨e.toJson.text, Expr.toText_eq he, fun x => Expr.ofText_toText he⟩

/-- A name of characters that the text escapes, in a tree of three levels. -/
theorem read_written_escaped :
    let e := Expr.call "pow" [.neg (.sym "<&\u2028\""), .num Int64.minValue]
    e ≠ .missing ∧
      (∃ members, e.toJson = .obj members ∧ Expr.ofMembers 3 members = .ok e ∧
        ∀ x, Expr.ofMembers 2 members ≠ .ok x) ∧
      (∃ text, e.toText = .ok text ∧ Expr.ofText defaultDepth text = .ok e) := by
  intro e
  have he : e ≠ .missing := by simp [e]
  have hvalid : validate e = .ok () := by decide
  have hdepth : e.depth = 3 := rfl
  obtain ⟨⟨members, hmembers, hread⟩, text, htext, hreadText⟩ := read_written e he
  refine ⟨he, ⟨members, hmembers, (hread 3 e).mpr ⟨rfl, hvalid, ?_⟩, fun x hx => ?_⟩,
    text, htext, (hreadText e).mpr ⟨rfl, hvalid, ?_⟩⟩
  · rw [hdepth]
    decide
  · have hlarge := ((hread 2 x).mp hx).2.2
    rw [hdepth] at hlarge
    exact absurd hlarge (by decide)
  · rw [hdepth]
    decide

end SymbolicCalculus
