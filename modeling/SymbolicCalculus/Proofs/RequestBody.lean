import Mathlib.Data.List.TakeWhile
import SymbolicCalculus.Proofs.JsonGrammar
import SymbolicCalculus.Proofs.Outcome
import SymbolicCalculus.Service.Exchange

/-!
# What a request body must be

A body that is answered with success begins with one JSON object and blanks around it,
within the limit of bytes. A closing bracket within the limit may stand behind that, with
anything after it, and goes unnoticed. Every other body is refused, and nothing is done
for it.
-/

set_option autoImplicit false

namespace SymbolicCalculus.Service

open Json (Blanks Whole Written isSpace)

/-! ## Bytes -/

@[simp] def byteCount : List Char → Nat
  | [] => 0
  | c :: cs => c.utf8Size + byteCount cs

@[simp] theorem byteCount_append (cs ds : List Char) :
    byteCount (cs ++ ds) = byteCount cs + byteCount ds := by
  induction cs with
  | nil => simp [byteCount]
  | cons c cs ih => rw [List.cons_append, byteCount, ih, byteCount, Nat.add_assoc]

theorem utf8Size_of_isSpace {c : Char} (h : isSpace c = true) : c.utf8Size = 1 := by
  simp only [isSpace, Bool.or_eq_true, decide_eq_true_eq] at h
  rcases h with ((rfl | rfl) | rfl) | rfl <;> rfl

/-! ## What is visible of a body -/

theorem visible_append {limit : Nat} {front : List Char} (h : byteCount front ≤ limit)
    (tail : List Char) :
    visible limit (front ++ tail) =
      (front ++ (visible (limit - byteCount front) tail).1,
        (visible (limit - byteCount front) tail).2) := by
  induction front generalizing limit with
  | nil => simp
  | cons c cs ih =>
    rw [byteCount] at h
    have hpos := c.utf8Size_pos
    cases limit with
    | zero => omega
    | succ n =>
      rw [List.cons_append, visible, if_neg (by omega), ih (by omega), byteCount,
        Nat.sub_sub, List.cons_append]

theorem byteCount_lt_of_visible {limit : Nat} {cs front back : List Char} {c : Char}
    (h : (visible limit cs).1 = front ++ c :: back) : byteCount front < limit := by
  induction cs generalizing limit front with
  | nil => simp [visible] at h
  | cons d cs ih =>
    cases limit with
    | zero => simp [visible] at h
    | succ n =>
      rw [visible] at h
      split_ifs at h with hsize
      · cases front with
        | nil => simp
        | cons d' front => simp at h
      · cases front with
        | nil => simp
        | cons d' front =>
          simp only [List.cons_append, List.cons.injEq] at h
          obtain ⟨rfl, h⟩ := h
          have := ih h
          rw [byteCount]
          omega

theorem exists_beyond (limit : Nat) (cs : List Char) :
    ∃ beyond, cs = (visible limit cs).1 ++ beyond ∧
      ((visible limit cs).2 = false → beyond = []) := by
  induction cs generalizing limit with
  | nil => exact ⟨[], rfl, fun _ => rfl⟩
  | cons c cs ih =>
    cases limit with
    | zero => exact ⟨c :: cs, by simp [visible]⟩
    | succ n =>
      rw [visible]
      by_cases hsize : n + 1 < c.utf8Size
      · rw [if_pos hsize]
        exact ⟨cs, rfl, nofun⟩
      · rw [if_neg hsize]
        obtain ⟨beyond, hcs, hmore⟩ := ih (n + 1 - c.utf8Size)
        exact ⟨beyond, by simpa using hcs, hmore⟩

/-! ## The front of a body -/

/-- Text that fits and from which the value is read whatever follows, with blanks at its end. -/
inductive Front (limit : Nat) (v : Json) : List Char → Prop
  | intro {seen blanks : List Char}
      (hscan : ∀ rest, Json.scan .start (seen ++ rest) = .value v rest) (hblanks : Blanks blanks)
      (hfits : byteCount (seen ++ blanks) ≤ limit) : Front limit v (seen ++ blanks)

/-- Text that goes unnoticed behind the front of a body: none, or a closing bracket within the
limit with anything after it. -/
def Ignored (limit : Nat) (front tail : List Char) : Prop :=
  tail = [] ∨ byteCount front < limit ∧ (tail.head? = some ']' ∨ tail.head? = some '\x7d')

theorem Ignored.append {limit : Nat} {front tail tail' : List Char}
    (h : Ignored limit front tail) (h' : Ignored limit (front ++ tail) tail') :
    Ignored limit front (tail ++ tail') := by
  cases tail with
  | nil => simpa using h'
  | cons c tail => simpa [Ignored] using h

theorem hasTrailing_append {blanks : List Char} (h : Blanks blanks) (rest : List Char)
    (more : Bool) : hasTrailing (blanks ++ rest) more = hasTrailing rest more := by
  rw [hasTrailing, List.dropWhile_append_of_pos h, hasTrailing]

theorem hasTrailing_eq_false {rest : List Char} {more : Bool} (h : hasTrailing rest more = false) :
    ∃ blanks tail, rest = blanks ++ tail ∧ Blanks blanks ∧
      (tail = [] ∧ more = false ∨ tail.head? = some ']' ∨ tail.head? = some '\x7d') := by
  refine ⟨rest.takeWhile isSpace, rest.dropWhile isSpace, List.takeWhile_append_dropWhile.symm,
    fun c hc => List.mem_takeWhile_imp hc, ?_⟩
  unfold hasTrailing at h
  split at h
  · next hnil => exact .inl ⟨hnil, h⟩
  · next c tail hcons =>
    rw [hcons]
    right
    by_cases hc : c = ']'
    · exact .inl (by rw [hc]; rfl)
    · exact .inr (by simpa [hc] using h)

theorem hasTrailing_bracket {c : Char} (hc : c = ']' ∨ c = '\x7d') (rest : List Char)
    (more : Bool) : hasTrailing (c :: rest) more = false := by
  rcases hc with rfl | rfl <;> rfl

theorem visible_bracket {c : Char} (hc : c = ']' ∨ c = '\x7d') (limit : Nat) (rest : List Char) :
    (visible (limit + 1) (c :: rest)).1 = c :: (visible limit rest).1 := by
  have hsize : c.utf8Size = 1 := by rcases hc with rfl | rfl <;> rfl
  rw [visible, if_neg (by omega), hsize, Nat.add_sub_cancel]

theorem hasTrailing_visible {limit : Nat} {front tail : List Char}
    (h : Ignored limit front tail) :
    hasTrailing (visible (limit - byteCount front) tail).1
      (visible (limit - byteCount front) tail).2 = false := by
  cases tail with
  | nil => simp [visible, hasTrailing]
  | cons c rest =>
    simp only [Ignored, reduceCtorEq, List.head?_cons, Option.some.injEq, false_or] at h
    obtain ⟨hroom, hc⟩ := h
    obtain ⟨room, hroom⟩ := Nat.exists_eq_add_of_lt hroom
    have hleft : limit - byteCount front = room + 1 := by omega
    rw [hleft, visible_bracket hc]
    exact hasTrailing_bracket hc _ _

theorem firstValue_of_front {limit : Nat} {v : Json} {front tail : List Char}
    (h : Front limit v front) (htail : Ignored limit front tail) :
    ∃ rest more, firstValue limit (String.ofList (front ++ tail)) = .ok (v, rest, more) ∧
      hasTrailing rest more = false := by
  obtain @⟨seen, blanks, hscan, hblanks, hfits⟩ := h
  refine ⟨blanks ++ (visible (limit - byteCount (seen ++ blanks)) tail).1,
    (visible (limit - byteCount (seen ++ blanks)) tail).2, ?_, ?_⟩
  · simp only [firstValue, String.toList_ofList, visible_append hfits]
    rw [List.append_assoc, hscan]
  · rw [hasTrailing_append hblanks]
    exact hasTrailing_visible htail

theorem firstValue_obj {limit : Nat} {body : String} {members : List (String × Json)}
    {rest : List Char} {more : Bool}
    (h : firstValue limit body = .ok (.obj members, rest, more)) :
    (visible limit body.toList).2 = more ∧
      ∃ seen, (visible limit body.toList).1 = seen ++ rest ∧ Whole (.obj members) seen ∧
        ∀ rest', Json.scan .start (seen ++ rest') = .value (.obj members) rest' := by
  simp only [firstValue] at h
  split at h
  · cases h
  · next hscan =>
    cases h
    obtain ⟨seen, hseen, hwhole, hany⟩ := Json.whole_of_scan Json.reads_start hscan
    exact ⟨rfl, seen, hseen, hwhole, hany rfl⟩
  · next r hscan =>
    split at h
    · split_ifs at h
      cases h
    · next v _ hend =>
      cases h
      have hreads := Json.reads_unfinished Json.reads_start hscan
      cases Json.isContainer_of_atEnd hreads hend
    · cases h

theorem byteCount_le_of_visible {limit : Nat} {cs init back : List Char} {c : Char}
    (h : (visible limit cs).1 = init ++ [c] ++ back) (hc : c.utf8Size = 1) :
    byteCount (init ++ [c]) ≤ limit := by
  have hlt := @byteCount_lt_of_visible limit cs init back c (by simpa using h)
  simp only [byteCount_append, byteCount, hc]
  omega

theorem front_fits {limit : Nat} {cs seen blanks back : List Char}
    {members : List (String × Json)} (h : (visible limit cs).1 = seen ++ blanks ++ back)
    (hwhole : Whole (.obj members) seen) (hblanks : Blanks blanks) :
    byteCount (seen ++ blanks) ≤ limit := by
  rcases List.eq_nil_or_concat blanks with rfl | ⟨init, c, rfl⟩
  · obtain ⟨_, hv⟩ := hwhole
    obtain ⟨init, rfl⟩ := hv.ends_obj
    rw [List.append_nil, ← List.append_assoc] at h ⊢
    exact byteCount_le_of_visible h rfl
  · rw [List.concat_eq_append, ← List.append_assoc] at h ⊢
    exact byteCount_le_of_visible h (utf8Size_of_isSpace (hblanks c (by simp)))

theorem exists_front {limit : Nat} {body : String} {members : List (String × Json)}
    {rest : List Char} {more : Bool}
    (h : firstValue limit body = .ok (.obj members, rest, more))
    (hrest : hasTrailing rest more = false) :
    ∃ front tail, body.toList = front ++ tail ∧ Front limit (.obj members) front ∧
      Ignored limit front tail := by
  obtain ⟨rfl, seen, hseen, hwhole, hscan⟩ := firstValue_obj h
  obtain ⟨blanks, stray, rfl, hblanks, hstray⟩ := hasTrailing_eq_false hrest
  obtain ⟨beyond, hbody, hbeyond⟩ := exists_beyond limit body.toList
  rw [← List.append_assoc] at hseen
  have hfits := front_fits hseen hwhole hblanks
  refine ⟨seen ++ blanks, stray ++ beyond, ?_, .intro hscan hblanks hfits, ?_⟩
  · rw [hbody, hseen, List.append_assoc]
  · cases stray with
    | nil => exact .inl (hbeyond (by simpa using hstray))
    | cons c stray =>
      exact .inr ⟨byteCount_lt_of_visible hseen, by simpa using hstray⟩

/-! ## Reading a body -/

section
variable {α : Type} {limit : Nat} {read : Json → Option α} {check : α → List FieldError}
  {body : String} {a : α}

theorem readBody_eq_ok :
    readBody limit read check body = .ok a ↔
      ∃ v rest more, firstValue limit body = .ok (v, rest, more) ∧
        hasTrailing rest more = false ∧ read v = some a ∧ check a = [] := by
  unfold readBody
  rw [bind_eq_ok]
  constructor
  · rintro ⟨⟨v, rest, more⟩, hv, h⟩
    dsimp only at h
    split at h
    · cases h
    · next a' ha' =>
      split_ifs at h with hrest
      split at h
      · next hcheck =>
        cases h
        exact ⟨v, rest, more, hv, by simpa using hrest, ha', hcheck⟩
      · cases h
  · rintro ⟨v, rest, more, hv, hrest, ha, hcheck⟩
    exact ⟨(v, rest, more), hv, by simp [ha, hrest, hcheck]⟩

theorem readBody_append (h : readBody limit read check body = .ok a)
    (hobj : ∀ {v}, read v = some a → check a = [] → ∃ members, v = .obj members) :
    (∃ members front tail, body.toList = front ++ tail ∧ Front limit (.obj members) front ∧
      Ignored limit front tail) ∧
    ∀ tail, Ignored limit body.toList tail →
      readBody limit read check (String.ofList (body.toList ++ tail)) = .ok a := by
  obtain ⟨v, rest, more, hv, hrest, ha, hcheck⟩ := readBody_eq_ok.mp h
  obtain ⟨members, rfl⟩ := hobj ha hcheck
  obtain ⟨front, tail, hbody, hfront, htail⟩ := exists_front hv hrest
  refine ⟨⟨members, front, tail, hbody, hfront, htail⟩, fun tail' htail' => ?_⟩
  rw [hbody] at htail' ⊢
  rw [List.append_assoc]
  obtain ⟨rest', more', hv', hrest'⟩ := firstValue_of_front hfront (htail.append htail')
  exact readBody_eq_ok.mpr ⟨_, rest', more', hv', hrest', ha, hcheck⟩

end

/-! ## Answers -/

/-- One JSON object with nothing but blanks around it, in at most so many bytes. -/
def OneObject (limit : Nat) (body : List Char) : Prop :=
  ∃ before text after members, body = before ++ text ++ after ∧ Blanks before ∧
    Written (.obj members) text ∧ Blanks after ∧ byteCount body ≤ limit

theorem Front.oneObject {limit : Nat} {members : List (String × Json)} {front : List Char}
    (h : Front limit (.obj members) front) : OneObject limit front := by
  obtain ⟨hscan, hblanks, hfits⟩ := h
  obtain ⟨seen, hseen, hwhole, _⟩ := Json.whole_of_scan Json.reads_start (hscan [])
  obtain rfl := List.append_cancel_right hseen
  obtain ⟨hbefore, htext⟩ := hwhole
  exact ⟨_, _, _, members, rfl, hbefore, htext, hblanks, hfits⟩

/-- One JSON object, with text behind it that goes unnoticed. -/
def Acceptable (limit : Nat) (body : List Char) : Prop :=
  ∃ front tail, body = front ++ tail ∧ OneObject limit front ∧ Ignored limit front tail

/-- Nothing was done for a request but to refuse it, count it and record it. -/
structure Refused (s : State) (label : String) (o : Outcome Reply) : Prop where
  status : o.result.status = 400 ∨ o.result.status = 413
  state : o.state =
    { s with counters := s.counters.map (·.observeRequest label o.result.status) }
  records : ∃ method path id, o.records = [requestRecord method path o.result.status id]

theorem obj_of_tool {v : Json} {r : ToolRequest} (h : ToolRequest.ofJson? true v = some r)
    (hr : toolErrors "ToolRequest" r = []) : ∃ members, v = .obj members := by
  cases v with
  | obj members => exact ⟨members, rfl⟩
  | null =>
    cases h
    cases hr
  | _ => cases h

theorem obj_of_batch {v : Json} {b : BatchRequest} (h : BatchRequest.ofJson? v = some b)
    (hb : batchErrors b = []) : ∃ members, v = .obj members := by
  cases v with
  | obj members => exact ⟨members, rfl⟩
  | null =>
    cases h
    cases hb
  | _ => cases h

/-- Each body is refused, or is acceptable and answered as with ignored text behind it. -/
theorem answer_cases (s : State) (now : Moment) (r : Request) {route : Route}
    (hroute : route = .tool ∨ route = .batch) :
    (∃ e : BodyError, s.answer now route r = ⟨s, [], .refusal e.status e.message⟩) ∨
      Acceptable s.bodyLimit r.body.toList ∧
        ∀ tail, Ignored s.bodyLimit r.body.toList tail →
          s.answer now route { r with body := String.ofList (r.body.toList ++ tail) } =
            s.answer now route r := by
  rcases hroute with rfl | rfl
  · cases h : readTool s.bodyLimit r.body with
    | error e => exact .inl ⟨e, by simp only [State.answer, State.answerTool, h]⟩
    | ok call =>
      obtain ⟨⟨_, front, tail, hbody, hfront, htail⟩, happend⟩ := readBody_append h obj_of_tool
      refine .inr ⟨⟨front, tail, hbody, hfront.oneObject, htail⟩, fun tail' htail' => ?_⟩
      have h' : readTool s.bodyLimit (String.ofList (r.body.toList ++ tail')) = .ok call :=
        happend tail' htail'
      simp only [State.answer, State.answerTool, h, h']
  · cases h : readBody s.bodyLimit BatchRequest.ofJson? batchErrors r.body with
    | error e =>
      refine .inl ⟨e, ?_⟩
      simp only [State.answer, State.answerBatch, readBatch, h, bind, Except.bind]
    | ok batch =>
      obtain ⟨⟨_, front, tail, hbody, hfront, htail⟩, happend⟩ := readBody_append h obj_of_batch
      refine .inr ⟨⟨front, tail, hbody, hfront.oneObject, htail⟩, fun tail' htail' => ?_⟩
      simp only [State.answer, State.answerBatch, readBatch, h, happend tail' htail']

theorem handle_of_route {s : State} {now : Moment} {r : Request} {route : Route}
    (h : s.route r.effectiveMethod (rawPath r.target) = .found route) :
    s.handle now r =
      let o := s.answer now route r
      ⟨{ o.state with
          counters := o.state.counters.map (·.observeRequest route.path o.result.status) },
        o.records ++ [requestRecord r.effectiveMethod (decodedPath (rawPath r.target))
          o.result.status (r.id now)],
        ⟨o.result.status, o.result.contentType, o.result.allow, r.id now, o.result.body⟩⟩ := by
  simp only [State.handle, h]

theorem route_of_path (s : State) {path : List Char}
    (h : path = "/tool".toList ∨ path = "/batch".toList) :
    ∃ route : Route, (route = .tool ∨ route = .batch) ∧ s.route "POST" path = .found route ∧
      route.path = String.ofList path := by
  rcases h with rfl | rfl
  · exact ⟨.tool, .inl rfl, rfl, rfl⟩
  · exact ⟨.batch, .inr rfl, rfl, rfl⟩

theorem BodyError.status_cases (e : BodyError) : e.status = 400 ∨ e.status = 413 := by
  cases e <;> simp [BodyError.status]

/-- A body that is answered with success begins with one JSON object between blanks, within
the limit, and ignored text behind it makes no difference. Every other body is refused, with
nothing done for it. -/
theorem body_of_success (s : State) (now : Moment) (r : Request) (hmethod : r.method = "POST")
    (hpath : rawPath r.target = "/tool".toList ∨ rawPath r.target = "/batch".toList) :
    ((s.handle now r).result.status = 200 →
      Acceptable s.bodyLimit r.body.toList ∧
        ∀ tail, Ignored s.bodyLimit r.body.toList tail →
          s.handle now { r with body := String.ofList (r.body.toList ++ tail) } =
            s.handle now r) ∧
    (¬ Acceptable s.bodyLimit r.body.toList →
      Refused s (String.ofList (rawPath r.target)) (s.handle now r)) := by
  obtain ⟨route, hroute, hfound, hlabel⟩ := route_of_path s hpath
  have heffective : r.effectiveMethod = "POST" := by simp [Request.effectiveMethod, hmethod]
  rw [← heffective] at hfound
  rw [← hlabel]
  rcases answer_cases s now r hroute with ⟨e, he⟩ | ⟨haccept, hignored⟩
  · have hstatus := e.status_cases
    have hhandle := @handle_of_route s now r route hfound
    rw [he] at hhandle
    refine ⟨fun h => ?_, fun _ => ?_⟩
    · rw [hhandle] at h
      have h200 : e.status = 200 := h
      omega
    · rw [hhandle]
      exact ⟨hstatus, rfl, _, _, _, rfl⟩
  · refine ⟨fun _ => ⟨haccept, fun tail htail => ?_⟩, fun h => (h haccept).elim⟩
    let r' : Request := { r with body := String.ofList (r.body.toList ++ tail) }
    have hfound' : s.route r'.effectiveMethod (rawPath r'.target) = .found route := hfound
    rw [handle_of_route hfound, handle_of_route hfound', hignored tail htail]
    rfl

/-- A call with a blank behind it and then with a bracket and more, and a batch without a body. -/
theorem body_of_success_bracket :
    let s : State := ⟨Config.default, some (.start "x")⟩
    let now : Moment := ⟨"", "id"⟩
    let call : Request := ⟨"POST", "/tool?a", [], "\x7b\"tool\":\"x\"\x7d ", false⟩
    let batch : Request := ⟨"POST", "/batch", [], "", false⟩
    (call.method = "POST" ∧ rawPath call.target = "/tool".toList ∧
      (s.handle now call).result.status = 200 ∧ Acceptable s.bodyLimit call.body.toList ∧
      s.handle now { call with body := String.ofList (call.body.toList ++ [']', '1']) } =
        s.handle now call) ∧
    (batch.method = "POST" ∧ rawPath batch.target = "/batch".toList ∧
      ¬ Acceptable s.bodyLimit batch.body.toList ∧ Refused s "/batch" (s.handle now batch)) := by
  intro s now call batch
  have hcall : rawPath call.target = "/tool".toList := by decide
  have hbatch : rawPath batch.target = "/batch".toList := by decide
  have hstatus : (s.handle now call).result.status = 200 := by decide +kernel
  have hempty : ¬ Acceptable s.bodyLimit batch.body.toList := by
    rintro ⟨front, tail, hbody, ⟨before, text, after, members, rfl, _, htext, _, _⟩, _⟩
    obtain ⟨init, rfl⟩ := htext.ends_obj
    simp [batch] at hbody
  obtain ⟨haccept, hignored⟩ := (body_of_success s now call rfl (.inl hcall)).1 hstatus
  have hrefused := (body_of_success s now batch rfl (.inr hbatch)).2 hempty
  rw [hbatch, String.ofList_toList] at hrefused
  exact ⟨⟨rfl, hcall, hstatus, haccept, hignored _ (.inr ⟨by decide, .inl rfl⟩)⟩,
    rfl, hbatch, hempty, hrefused⟩

theorem status_of_front (s : State) (now : Moment) {r : Request} {front tail : List Char}
    {v : Json} {call : ToolRequest} (hmethod : r.method = "POST")
    (hpath : rawPath r.target = "/tool".toList) (hbody : r.body = String.ofList (front ++ tail))
    (hfront : Front s.bodyLimit v front) (htail : Ignored s.bodyLimit front tail)
    (hread : ToolRequest.ofJson? true v = some call)
    (hcheck : toolErrors "ToolRequest" call = []) : (s.handle now r).result.status = 200 := by
  obtain ⟨rest, more, hfirst, hrest⟩ := firstValue_of_front hfront htail
  have hok : readTool s.bodyLimit r.body = .ok call := by
    rw [hbody]
    exact readBody_eq_ok.mpr ⟨v, rest, more, hfirst, hrest, hread, hcheck⟩
  have hfound : s.route r.effectiveMethod (rawPath r.target) = .found .tool := by
    rw [Request.effectiveMethod, hmethod, hpath]
    rfl
  rw [handle_of_route hfound]
  simp only [State.answer, State.answerTool, hok, Answer.json]

theorem OneObject.last {limit : Nat} {cs : List Char} {c : Char} (h : OneObject limit (cs ++ [c])) :
    c = '\x7d' ∨ isSpace c = true := by
  obtain ⟨before, text, after, members, hbody, _, htext, hafter, _⟩ := h
  have hlast := congrArg List.getLast? hbody
  rcases List.eq_nil_or_concat after with rfl | ⟨init, d, rfl⟩
  · obtain ⟨init, rfl⟩ := htext.ends_obj
    exact .inl (by simpa [← List.append_assoc] using hlast)
  · obtain rfl : c = d := by simpa [← List.append_assoc] using hlast
    exact .inr (hafter c (by simp))

/-- A body with a stray bracket at its end, and one that goes on behind the bracket until it is
longer than the limit, and both succeed. -/
theorem success_with_ignored_text :
    let s : State := ⟨{ Config.default with limits := { Config.default.limits with
      maxBodyBytes := 1024 } }, none⟩
    let post (body : List Char) : Request := ⟨"POST", "/tool", [], String.ofList body, false⟩
    let call := "\x7b\"tool\":\"x\"\x7d".toList
    let stray := call ++ [']']
    let long := call ++ ']' :: List.replicate 1012 ' '
    s.config.validate = .ok s.config ∧
      (∀ now, (s.handle now (post stray)).result.status = 200) ∧ ¬ OneObject s.bodyLimit stray ∧
      (∀ now, (s.handle now (post long)).result.status = 200) ∧ s.bodyLimit < byteCount long := by
  intro s post call stray long
  have hscan (rest : List Char) : Json.scan .start (call ++ rest) =
      .value (.obj [("tool", .str "x")]) rest := rfl
  have hfront : Front s.bodyLimit (.obj [("tool", .str "x")]) (call ++ []) :=
    .intro hscan nofun (by decide)
  have hbytes (n : Nat) : byteCount (List.replicate n ' ') = n := by
    induction n with
    | zero => rfl
    | succ n ih => rw [List.replicate_succ, byteCount, ih, Nat.add_comm]; rfl
  refine ⟨?_, fun now => ?_, fun h => absurd h.last (by decide), fun now => ?_, ?_⟩
  · have hviolations : s.config.violations = [] := by decide
    rw [Config.validate, hviolations]
  · exact status_of_front s now rfl (by decide) rfl hfront (.inr ⟨by decide, .inl rfl⟩) rfl rfl
  · exact status_of_front s now rfl (by decide) rfl hfront (.inr ⟨by decide, .inl rfl⟩) rfl rfl
  · show 1024 < byteCount (call ++ ']' :: List.replicate 1012 ' ')
    rw [byteCount_append, byteCount, hbytes]
    decide

end SymbolicCalculus.Service
