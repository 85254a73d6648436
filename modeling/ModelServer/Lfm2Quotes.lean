import ModelServer.Lfm2Literals

/-! The quotes of a list or a dict, rewritten to those of JSON. -/

namespace ModelServer.Lfm2ToolParser

section Texts

mutual

/-- A value as it is written, with these quotes around its strings. -/
def Literal.textWith (quote : Byte) : Literal → Str
  | .none => bytes "None"
  | .bool b => if b then bytes "True" else bytes "False"
  | .int n => Json.integerText n
  | .str s => quote :: (s.text ++ [quote])
  | .list items => 91 :: (Json.joined [32] (itemTextsWith quote items) ++ [93])
  | .dict members => 123 :: (Json.joined [32] (memberTextsWith quote members) ++ [125])

def itemTextsWith (quote : Byte) : List Literal → List Str
  | [] => []
  | v :: vs => v.textWith quote :: itemTextsWith quote vs

def memberTextsWith (quote : Byte) : List (PlainText × Literal) → List Str
  | [] => []
  | (k, v) :: ms => (quote :: (k.text ++ [quote]) ++ 58 :: 32 :: v.textWith quote) :: memberTextsWith quote ms

end

theorem separated_eq_joined (texts : List Str) : separated texts = Json.joined [32] texts := by
  induction texts with
  | nil => rfl
  | cons text texts ih =>
    cases texts with
    | nil => exact (List.append_nil text).symm
    | cons next texts =>
      rw [separated, ih, Json.joined_cons_cons, List.append_assoc]
      · rfl
      · exact List.cons_ne_nil next texts

theorem text_int (n : Int) : (Literal.int n).text = Json.integerText n := by
  cases n with
  | ofNat n =>
    have hsign : decide (Int.ofNat n < 0) = false := decide_eq_false (Int.not_lt.mpr (Int.natCast_nonneg n))
    rw [Literal.text, Literal.python, PythonLiteral.text, hsign]
    exact List.append_nil _
  | negSucc n =>
    have hsign : decide (Int.negSucc n < 0) = true := decide_eq_true (Int.negSucc_lt_zero n)
    rw [Literal.text, Literal.python, PythonLiteral.text, hsign]
    exact List.append_nil _

mutual

theorem text_eq_textWith : ∀ v : Literal, v.text = v.textWith 39
  | .none => rfl
  | .bool _ => rfl
  | .int n => text_int n
  | .str _ => rfl
  | .list items => by
    have hitems := itemTexts_eq items
    rw [Literal.text, Literal.python, PythonLiteral.text, hitems, separated_eq_joined]
    rfl
  | .dict members => by
    have hmembers := memberTexts_eq members
    rw [Literal.text, Literal.python, PythonLiteral.text, hmembers, separated_eq_joined]
    rfl

theorem itemTexts_eq : ∀ items : List Literal, itemTexts (pythonItems items) = itemTextsWith 39 items
  | [] => rfl
  | v :: vs => by
    have hvalue := text_eq_textWith v
    rw [pythonItems, itemTexts, itemTexts_eq vs, itemTextsWith, ← hvalue]
    rfl

theorem memberTexts_eq : ∀ members : List (PlainText × Literal), memberTexts (pythonMembers members) = memberTextsWith 39 members
  | [] => rfl
  | (k, v) :: ms => by
    have hvalue := text_eq_textWith v
    rw [pythonMembers, memberTexts, memberTexts_eq ms, memberTextsWith, ← hvalue, List.append_assoc]
    rfl

end

end Texts

section Quotes

theorem forall_of_all {p : Byte → Prop} [DecidablePred p] {text : Str} (h : (text.all fun c => decide (p c)) = true) : ∀ c ∈ text, p c :=
  fun c hc => of_decide_eq_true (List.all_eq_true.mp h c hc)

variable {followers : List Byte}

theorem replaceQuotes_plain {text : Str} (h : ∀ c ∈ text, c ≠ 39) (quoteDepth : Bool) (rest : Str) :
    replaceQuotes followers quoteDepth (text ++ rest) = text ++ replaceQuotes followers quoteDepth rest := by
  induction text with
  | nil => rfl
  | cons c text ih =>
    have hc : c ≠ char '\'' := h c List.mem_cons_self
    rw [List.cons_append, replaceQuotes, if_pos hc, ih fun d hd => h d (List.mem_cons_of_mem c hd)]
    rfl

theorem quote_ne_of_isPlain {s : Str} (h : ∀ c ∈ s, isPlain c = true) : ∀ c ∈ s, c ≠ 39 := by
  rintro c hc rfl
  exact absurd (h 39 hc) (by decide)

/-- A string whose closing quote is recognised. -/
theorem replaceQuotes_str (s : PlainText) {rest : Str} (h : rest.head?.all (followers.contains ·) = true) :
    replaceQuotes followers false (39 :: (s.text ++ 39 :: rest)) = 34 :: (s.text ++ 34 :: replaceQuotes followers false rest) := by
  have hclosing : (rest.isEmpty || rest.head?.any (followers.contains ·)) = true := by
    cases rest with
    | nil => rfl
    | cons c rest => exact h
  rw [replaceQuotes, if_neg (by decide), if_pos (by decide), replaceQuotes_plain (quote_ne_of_isPlain s.plain), replaceQuotes,
    if_neg (by decide), if_neg (by decide), if_pos hclosing]
  rfl

/-- A closing quote that is not recognised stays. -/
theorem quote_mem_of_unclosed (s : PlainText) {rest : Str} (h : rest.head?.all (followers.contains ·) = false) :
    39 ∈ replaceQuotes followers false (39 :: (s.text ++ 39 :: rest)) := by
  have hclosing : ¬(rest.isEmpty || rest.head?.any (followers.contains ·)) = true := by
    cases rest with
    | nil => cases h
    | cons c rest => exact Bool.not_eq_true _ ▸ h
  rw [replaceQuotes, if_neg (by decide), if_pos (by decide), replaceQuotes_plain (quote_ne_of_isPlain s.plain), replaceQuotes,
    if_neg (by decide), if_neg (by decide), if_neg hclosing]
  exact List.mem_cons_of_mem _ (List.mem_append_right _ List.mem_cons_self)

theorem replaceQuotes_cons {c : Byte} (h : c ≠ 39) (quoteDepth : Bool) (rest : Str) :
    replaceQuotes followers quoteDepth (c :: rest) = c :: replaceQuotes followers quoteDepth rest := by
  have hc : c ≠ char '\'' := h
  rw [replaceQuotes, if_pos hc]

theorem integerText_ne_quote (n : Int) : ∀ c ∈ Json.integerText n, c ≠ 39 := by
  rintro c hc rfl
  exact Json.notMem_of_readNumber ⟨rfl, by decide⟩ (Json.readNumber_integerText n) hc

/-- What the rewriting makes of a part of the text: the part with quotes of JSON, or something with a single quote left. -/
structure Rewrites (followers : List Byte) (closes : Bool) (text rewritten rest : Str) : Prop where
  done : closes = true → replaceQuotes followers false (text ++ rest) = rewritten ++ replaceQuotes followers false rest
  left : closes = false → 39 ∈ replaceQuotes followers false (text ++ rest)

theorem Rewrites.plain {text : Str} (h : ∀ c ∈ text, c ≠ 39) (rest : Str) : Rewrites followers true text text rest :=
  ⟨fun _ => replaceQuotes_plain h false rest, fun h => by cases h⟩

theorem Rewrites.append {text rewritten text' rewritten' rest : Str} {closes closes' : Bool}
    (h : Rewrites followers closes text rewritten (text' ++ rest)) (h' : Rewrites followers closes' text' rewritten' rest) :
    Rewrites followers (closes && closes') (text ++ text') (rewritten ++ rewritten') rest := by
  constructor
  · intro hall
    rw [Bool.and_eq_true] at hall
    rw [List.append_assoc, h.done hall.1, h'.done hall.2, List.append_assoc]
  · intro hleft
    rw [List.append_assoc]
    cases hfirst : closes with
    | false => exact h.left hfirst
    | true =>
      rw [hfirst, Bool.true_and] at hleft
      rw [h.done hfirst]
      exact List.mem_append_right _ (h'.left hleft)

theorem Rewrites.cons {c : Byte} {text rewritten rest : Str} {closes : Bool} (h : Rewrites followers closes text rewritten rest)
    (hc : c ≠ 39) : Rewrites followers closes (c :: text) (c :: rewritten) rest := by
  have hfirst : Rewrites followers true [c] [c] (text ++ rest) := by
    refine Rewrites.plain (fun d hd => ?_) _
    rw [List.mem_singleton.mp hd]
    exact hc
  have hall := hfirst.append h
  rwa [Bool.true_and] at hall

theorem str_append (quote : Byte) (s rest : Str) : quote :: (s ++ [quote]) ++ rest = quote :: (s ++ quote :: rest) := by
  rw [List.cons_append, List.append_assoc, List.singleton_append]

theorem Rewrites.str (s : PlainText) (rest : Str) :
    Rewrites followers (rest.head?.all (followers.contains ·)) (39 :: (s.text ++ [39])) (34 :: (s.text ++ [34])) rest := by
  constructor
  · intro h
    rw [str_append, str_append]
    exact replaceQuotes_str s h
  · intro h
    rw [str_append]
    exact quote_mem_of_unclosed s h

/-- A comma and a blank, with what follows them. -/
theorem Rewrites.gap {text rewritten rest : Str} {closes : Bool} (h : Rewrites followers closes text rewritten rest) :
    Rewrites followers closes (44 :: ([32] ++ text)) (44 :: ([32] ++ rewritten)) rest :=
  (h.cons (by decide)).cons (by decide)

mutual

theorem rewrites_literal (v : Literal) (rest : Str) :
    Rewrites followers (v.closes followers rest.head?) (v.textWith 39) (v.textWith 34) rest := by
  cases v with
  | none => exact Rewrites.plain (forall_of_all (by decide)) rest
  | bool b =>
    cases b with
    | true => exact Rewrites.plain (forall_of_all (by decide)) rest
    | false => exact Rewrites.plain (forall_of_all (by decide)) rest
  | int n => exact Rewrites.plain (integerText_ne_quote n) rest
  | str s => exact Rewrites.str s rest
  | list items =>
    have hbracket : Rewrites followers true [93] [93] rest := Rewrites.plain (forall_of_all (by decide)) rest
    have hitems := (rewrites_items items ([93] ++ rest)).append hbracket
    rw [Bool.and_true] at hitems
    exact hitems.cons (by decide)
  | dict members =>
    have hbrace : Rewrites followers true [125] [125] rest := Rewrites.plain (forall_of_all (by decide)) rest
    have hmembers := (rewrites_members members ([125] ++ rest)).append hbrace
    rw [Bool.and_true] at hmembers
    exact hmembers.cons (by decide)

theorem rewrites_items (items : List Literal) (rest : Str) :
    Rewrites followers (closesItems followers rest.head? items) (Json.joined [32] (itemTextsWith 39 items))
      (Json.joined [32] (itemTextsWith 34 items)) rest := by
  cases items with
  | nil => exact Rewrites.plain (fun _ hc => absurd hc List.not_mem_nil) rest
  | cons v vs =>
    have hlater := rewrites_items vs rest
    cases vs with
    | nil =>
      have hvalue := rewrites_literal v ([] ++ rest)
      exact hvalue.append hlater
    | cons w vs =>
      have hvalue := rewrites_literal v (44 :: ([32] ++ Json.joined [32] (itemTextsWith 39 (w :: vs))) ++ rest)
      have hall := hvalue.append hlater.gap
      rw [itemTextsWith, itemTextsWith, itemTextsWith, itemTextsWith, Json.joined_cons_cons, Json.joined_cons_cons]
      exact hall

theorem rewrites_members (members : List (PlainText × Literal)) (rest : Str) :
    Rewrites followers (closesMembers followers rest.head? members) (Json.joined [32] (memberTextsWith 39 members))
      (Json.joined [32] (memberTextsWith 34 members)) rest := by
  cases members with
  | nil => exact Rewrites.plain (fun _ hc => absurd hc List.not_mem_nil) rest
  | cons member ms =>
    obtain ⟨k, v⟩ := member
    have hlater := rewrites_members ms rest
    have hmember (behind : Str) : Rewrites followers (followers.contains 58 && v.closes followers behind.head?)
        (39 :: (k.text ++ [39]) ++ 58 :: 32 :: v.textWith 39) (34 :: (k.text ++ [34]) ++ 58 :: 32 :: v.textWith 34) behind := by
      have hvalue := ((rewrites_literal v behind).cons (c := 32) (by decide)).cons (c := 58) (by decide)
      exact (Rewrites.str k (58 :: 32 :: v.textWith 39 ++ behind)).append hvalue
    cases ms with
    | nil => exact (hmember ([] ++ rest)).append hlater
    | cons next ms =>
      have hall := (hmember (44 :: ([32] ++ Json.joined [32] (memberTextsWith 39 (next :: ms))) ++ rest)).append hlater.gap
      obtain ⟨k', v'⟩ := next
      rw [memberTextsWith, memberTextsWith, memberTextsWith, memberTextsWith, Json.joined_cons_cons, Json.joined_cons_cons]
      exact hall

end

/-- A byte of no text of a value. -/
structure Foreign (byte quote : Byte) : Prop where
  notNumeric : Json.NotNumeric byte
  ne_quote : byte ≠ quote
  notPlain : isPlain byte = false
  notMark : byte ∉ bytes "None" ++ bytes "True" ++ bytes "False" ++ bytes "[], :\x7b\x7d"

theorem Foreign.notMem_str {byte quote : Byte} (h : Foreign byte quote) (s : PlainText) : byte ∉ quote :: (s.text ++ [quote]) := by
  have htext : byte ∉ s.text := fun hmem => by
    have hplain := s.plain byte hmem
    rw [h.notPlain] at hplain
    cases hplain
  simp [h.ne_quote, htext]

theorem Foreign.notMem_gap {byte quote : Byte} (h : Foreign byte quote) {text later : Str} (htext : byte ∉ text) (hlater : byte ∉ later) :
    byte ∉ text ++ 44 :: ([32] ++ later) := by
  have hmark := h.notMark
  simp [bytes, Char.toUInt8] at hmark
  simp [htext, hlater, hmark]

mutual

theorem Foreign.notMem_textWith {byte quote : Byte} (h : Foreign byte quote) : ∀ v : Literal, byte ∉ v.textWith quote
  | .none => fun hmem => h.notMark (List.mem_append_left _ (List.mem_append_left _ (List.mem_append_left _ hmem)))
  | .bool true => fun hmem => h.notMark (List.mem_append_left _ (List.mem_append_left _ (List.mem_append_right _ hmem)))
  | .bool false => fun hmem => h.notMark (List.mem_append_left _ (List.mem_append_right _ hmem))
  | .int n => Json.notMem_of_readNumber h.notNumeric (Json.readNumber_integerText n)
  | .str s => h.notMem_str s
  | .list items => by
    have hitems := Foreign.notMem_items h items
    have hmark := h.notMark
    simp [bytes, Char.toUInt8] at hmark
    simp [Literal.textWith, hitems, hmark]
  | .dict members => by
    have hmembers := Foreign.notMem_members h members
    have hmark := h.notMark
    simp [bytes, Char.toUInt8] at hmark
    simp [Literal.textWith, hmembers, hmark]

theorem Foreign.notMem_items {byte quote : Byte} (h : Foreign byte quote) : ∀ items : List Literal,
    byte ∉ Json.joined [32] (itemTextsWith quote items)
  | [] => List.not_mem_nil
  | v :: vs => by
    have hvalue := Foreign.notMem_textWith h v
    have hlater := Foreign.notMem_items h vs
    cases vs with
    | nil => simpa [itemTextsWith, Json.joined] using hvalue
    | cons w vs =>
      rw [itemTextsWith, itemTextsWith, Json.joined_cons_cons]
      exact h.notMem_gap hvalue hlater

theorem Foreign.notMem_members {byte quote : Byte} (h : Foreign byte quote) : ∀ members : List (PlainText × Literal),
    byte ∉ Json.joined [32] (memberTextsWith quote members)
  | [] => List.not_mem_nil
  | (k, v) :: ms => by
    have hvalue := Foreign.notMem_textWith h v
    have hlater := Foreign.notMem_members h ms
    have hkey := h.notMem_str k
    have hmember : byte ∉ quote :: (k.text ++ [quote]) ++ 58 :: 32 :: v.textWith quote := by
      have hmark := h.notMark
      simp [bytes, Char.toUInt8] at hmark
      simp only [List.mem_append, List.mem_cons, not_or] at hkey ⊢
      exact ⟨hkey, by simp [hmark], by simp [hmark], hvalue⟩
    cases ms with
    | nil => simpa [memberTextsWith, Json.joined] using hmember
    | cons next ms =>
      obtain ⟨k', v'⟩ := next
      rw [memberTextsWith, memberTextsWith, Json.joined_cons_cons]
      exact h.notMem_gap hmember hlater

end

end Quotes

section Reading

/-- What is read of the value with the quotes of JSON: constants are not those of JSON. -/
def Literal.read (v : Literal) : Option Json := if v.constantFree then some v.json else .none

def itemParts (items : List Literal) : List (Str × Option Json) := items.map fun v => (v.textWith 34, v.read)

def memberParts (members : List (PlainText × Literal)) : List Json.MemberPart :=
  members.map fun (k, v) => ⟨k.text, v.textWith 34, v.read⟩

theorem itemParts_texts (items : List Literal) : (itemParts items).map Prod.fst = itemTextsWith 34 items := by
  induction items with
  | nil => rfl
  | cons v vs ih => exact congrArg (v.textWith 34 :: ·) ih

theorem quoted_plain (s : PlainText) : Json.quoted s.text = 34 :: (s.text ++ [34]) := by
  have hplain : ∀ c : Byte, isPlain c = true → Json.escapeByte c = [c] := by
    intro c hc
    simp only [isPlain, Bool.and_eq_true, decide_eq_true_iff, bne_iff_ne, UInt8.le_iff_toNat_le] at hc
    obtain ⟨⟨⟨hcontrol, -⟩, hquote⟩, hbackslash⟩ := hc
    change c ≠ 34 at hquote
    change c ≠ 92 at hbackslash
    have hne (d : UInt8) (hd : d.toNat < 32) : c ≠ d := by
      rintro rfl
      exact absurd hcontrol (Nat.not_le_of_lt hd)
    have hlt : ¬c < 32 := fun h => absurd hcontrol (Nat.not_le_of_lt (UInt8.lt_iff_toNat_lt.mp h))
    rw [Json.escapeByte, if_neg hquote, if_neg hbackslash, if_neg (hne 8 (by decide)), if_neg (hne 9 (by decide)),
      if_neg (hne 10 (by decide)), if_neg (hne 12 (by decide)), if_neg (hne 13 (by decide)), if_neg hlt]
  have hall : ∀ text : Str, (∀ c ∈ text, isPlain c = true) → text.flatMap Json.escapeByte = text := by
    intro text htext
    induction text with
    | nil => rfl
    | cons c text ih =>
      rw [List.flatMap_cons, hplain c (htext c List.mem_cons_self), ih fun d hd => htext d (List.mem_cons_of_mem c hd)]
      rfl
  rw [Json.quoted, hall s.text s.plain]

theorem memberParts_texts (members : List (PlainText × Literal)) :
    (memberParts members).map (Json.MemberPart.memberText [32]) = memberTextsWith 34 members := by
  induction members with
  | nil => rfl
  | cons member ms ih =>
    obtain ⟨k, v⟩ := member
    have hmember : Json.MemberPart.memberText [32] ⟨k.text, v.textWith 34, v.read⟩ = 34 :: (k.text ++ [34]) ++ 58 :: 32 :: v.textWith 34 := by
      rw [Json.MemberPart.memberText, quoted_plain]
      rfl
    rw [memberTextsWith, ← ih, ← hmember]
    rfl

theorem itemParts_values (items : List Literal) :
    (itemParts items).mapM Prod.snd = if constantFreeItems items then some (jsonItems items) else .none := by
  induction items with
  | nil => rfl
  | cons v vs ih =>
    rw [itemParts, List.map_cons, ← itemParts, List.mapM_cons, ih, constantFreeItems]
    dsimp only
    rw [Literal.read]
    cases v.constantFree with
    | false => rfl
    | true =>
      cases constantFreeItems vs with
      | false => rfl
      | true => rfl

theorem memberParts_values (members : List (PlainText × Literal)) :
    (memberParts members).mapM Json.MemberPart.member = if constantFreeMembers members then some (jsonMembers members) else .none := by
  induction members with
  | nil => rfl
  | cons member ms ih =>
    obtain ⟨k, v⟩ := member
    rw [memberParts, List.map_cons, ← memberParts, List.mapM_cons, ih, constantFreeMembers, Json.MemberPart.member]
    dsimp only
    rw [Literal.read]
    cases v.constantFree with
    | false => rfl
    | true =>
      cases constantFreeMembers ms with
      | false => rfl
      | true => rfl

theorem blank_gap : ∀ c ∈ ([32] : Str), Json.isBlank c = true := forall_of_all (by decide)

mutual

theorem readsAs_literal (v : Literal) : Json.ReadsAs (v.textWith 34) v.read := by
  cases v with
  | none =>
    refine Json.ReadsAs.of_succ ⟨78, rfl, by decide⟩ fun _ _ _ => ?_
    rw [Json.readValue.eq_def]
    rfl
  | bool b =>
    cases b with
    | true =>
      refine Json.ReadsAs.of_succ ⟨84, rfl, by decide⟩ fun _ _ _ => ?_
      rw [Json.readValue.eq_def]
      rfl
    | false =>
      refine Json.ReadsAs.of_succ ⟨70, rfl, by decide⟩ fun _ _ _ => ?_
      rw [Json.readValue.eq_def]
      rfl
  | int n => exact Json.readsAs_num (Json.readNumber_integerText n)
  | str s =>
    rw [Literal.textWith, ← quoted_plain]
    exact Json.readsAs_str s.text
  | list items =>
    have harr := Json.readsAs_arr blank_gap (itemParts items) (readsAs_itemParts items)
    rw [itemParts_texts, itemParts_values] at harr
    rw [Literal.textWith, Literal.read, Literal.constantFree, Literal.json]
    cases hfree : constantFreeItems items with
    | false => rwa [hfree] at harr
    | true => rwa [hfree] at harr
  | dict members =>
    have hobj := Json.readsAs_obj blank_gap (memberParts members) (readsAs_memberParts members)
    rw [memberParts_texts, memberParts_values] at hobj
    rw [Literal.textWith, Literal.read, Literal.constantFree, Literal.json]
    cases hfree : constantFreeMembers members with
    | false => rwa [hfree] at hobj
    | true => rwa [hfree] at hobj

theorem readsAs_itemParts (items : List Literal) : ∀ p ∈ itemParts items, Json.ReadsAs p.1 p.2 := by
  cases items with
  | nil => exact fun p hp => absurd hp List.not_mem_nil
  | cons v vs =>
    have hvalue := readsAs_literal v
    have hlater := readsAs_itemParts vs
    intro p hp
    rcases List.mem_cons.mp hp with rfl | hp
    · exact hvalue
    · exact hlater p hp

theorem readsAs_memberParts (members : List (PlainText × Literal)) : ∀ p ∈ memberParts members, Json.ReadsAs p.text p.value := by
  cases members with
  | nil => exact fun p hp => absurd hp List.not_mem_nil
  | cons member ms =>
    obtain ⟨k, v⟩ := member
    have hvalue := readsAs_literal v
    have hlater := readsAs_memberParts ms
    intro p hp
    rcases List.mem_cons.mp hp with rfl | hp
    · exact hvalue
    · exact hlater p hp

end

end Reading

end ModelServer.Lfm2ToolParser
