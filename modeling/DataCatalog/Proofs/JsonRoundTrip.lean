import DataCatalog.Json.Reader
import DataCatalog.Json.Writer
import DataCatalog.Proofs.Entries
import DataCatalog.Proofs.Numerals
import Mathlib

/-!
# Documents are read back

A written document is read back, with its doubles as the reader makes them of their digits, unless
it nests deeper than the reader goes; without doubles it is read back as it was.  What carries the
induction is that a value is read off the front of any text that goes on with a mark of an array or
an object: numbers end there, and everything else ends by itself.  Arrays and objects are then read
part by part.
-/

namespace DataCatalog.Json

variable {α β : Type} {rest : List Char}

theorem skipSpace_cons {c : Char} (h : isSpace c = false) (rest : List Char) :
    skipSpace (c :: rest) = c :: rest :=
  List.dropWhile_cons_of_neg (by simp [h])

/-! ## Texts -/

/-- An escaped character is read as the character, and the text goes on behind it. -/
theorem stringBody_escape (c : Char) (s : List Char) :
    stringBody none (escape c ++ s) = (stringBody none s).map (consChar c) := by
  unfold escape
  -- The quote, the backslash and the controls that have a letter of their own.
  iterate 7
    split
    · next h =>
        subst h
        rfl
  split
  · next hcontrol =>
      have hzero : Text.hexValue? '0' = some 0 := by decide
      have hhigh : Text.hexValue? (Text.lowerHex (c.toNat / 16)) = some (c.toNat / 16) :=
        Text.hexValue?_lowerHex (by omega)
      have hlow : Text.hexValue? (Text.lowerHex (c.toNat % 16)) = some (c.toNat % 16) :=
        Text.hexValue?_lowerHex (by omega)
      have hsum : 4096 * 0 + 256 * 0 + 16 * (c.toNat / 16) + c.toNat % 16 = c.toNat := by omega
      have hunit : codeUnit? '0' '0' (Text.lowerHex (c.toNat / 16))
          (Text.lowerHex (c.toNat % 16)) = some c.toNat := by
        simp only [codeUnit?, hzero, hhigh, hlow, bind, Option.bind_some, hsum]
      have hsurrogate : isLowSurrogate c.toNat = false ∧ isHighSurrogate c.toNat = false := by
        simp only [isLowSurrogate, isHighSurrogate, Bool.and_eq_false_iff, decide_eq_false_iff_not]
        omega
      simp only [List.cons_append, List.nil_append, stringBody, hunit, hsurrogate.1, hsurrogate.2,
        Bool.false_eq_true, if_false, Char.ofNat_toNat]
  · next hquote hbackslash _ _ _ _ _ hcontrol =>
      rw [List.cons_append, List.nil_append, stringBody.eq_def]
      split <;> simp_all

theorem stringBody_flatMap_escape (s : List Char) (rest : List Char) :
    stringBody none (s.flatMap escape ++ '"' :: rest) = .ok (s, rest) := by
  induction s with
  | nil => rfl
  | cons c s ih =>
      rw [List.flatMap_cons, List.append_assoc, stringBody_escape, ih]
      rfl

theorem readString_quote (s : String) (rest : List Char) :
    readString (s.toList.flatMap escape ++ '"' :: rest) = .ok (s, rest) := by
  simp only [readString, stringBody_flatMap_escape, bind, Except.bind, String.ofList_toList]

/-! ## Lists of parts -/

/-- The text starts like a part of a list, and the reader takes it off the front of a text. -/
structure Reads (reader : Reader α) (text : List Char) (value : α) : Prop where
  starts : ∃ c more, text = c :: more ∧ isSpace c = false ∧ c ≠ ']' ∧ c ≠ '\x7d'
  reads : ∀ rest, Closing rest → reader (text ++ rest) = .ok (value, rest)

/-- What stands behind a part of a list: the end of the list, or the start of another part. -/
def nextPart (close : Char) (stop other : SyntaxError) (rest : List Char) :
    Except SyntaxError (Bool × List Char) :=
  match skipSpace rest with
  | [] => .error stop
  | c :: tail =>
    if c = close then .ok (true, tail)
    else if c = ',' then
      match skipSpace tail with
      | [] => .error .endInValue
      | d :: more => if d = close then .error .trailingComma else .ok (false, d :: more)
    else .error other

/-- The loop reads a part, looks at what stands behind it, and goes on or stops there. -/
structure Loops (close : Char) (stop other : SyntaxError) (part : Reader α)
    (loop : Nat → Reader (List α)) : Prop where
  zero : ∀ s, loop 0 s = .error stop
  succ : ∀ count s, loop (count + 1) s = do
    let (x, rest) ← part s
    let (last, tail) ← nextPart close stop other rest
    if last then .ok ([x], tail)
    else (loop count tail).map fun read => (x :: read.1, read.2)

theorem loops_readItems (item : Reader α) :
    Loops ']' .endInArray .expectedItemEnd item (readItems item) where
  zero _ := rfl
  succ count s := by
    rw [readItems]
    cases item s with
    | error e => rfl
    | ok read =>
        simp only [bind, Except.bind, nextPart]
        generalize skipSpace read.2 = front
        split
        · rfl
        · rfl
        · next tail =>
            simp only [Char.reduceEq, if_false, if_true]
            generalize skipSpace tail = front
            split
            · rfl
            · rfl
            · next hend hclose =>
                obtain _ | ⟨d, more⟩ := front
                · exact absurd rfl hend
                · have hd : d ≠ ']' := by
                    rintro rfl
                    exact hclose more rfl
                  simp only [hd, if_false]
                  cases readItems item count (d :: more) <;> rfl
        · next hend hclose hcomma =>
            obtain _ | ⟨d, more⟩ := front
            · exact absurd rfl hend
            · simp_all

theorem loops_readMembers {κ : Type} (key : Reader κ) (value : κ → Reader α) :
    Loops '\x7d' .endInObject .expectedMemberEnd (readMember key value) (readMembers key value) where
  zero _ := rfl
  succ count s := by
    rw [readMembers]
    cases readMember key value s with
    | error e => rfl
    | ok read =>
        simp only [bind, Except.bind, nextPart]
        generalize skipSpace read.2 = front
        split
        · rfl
        · rfl
        · next tail =>
            simp only [Char.reduceEq, if_false, if_true]
            generalize skipSpace tail = front
            split
            · rfl
            · rfl
            · next hend hclose =>
                obtain _ | ⟨d, more⟩ := front
                · exact absurd rfl hend
                · have hd : d ≠ '\x7d' := by
                    rintro rfl
                    exact hclose more rfl
                  simp only [hd, if_false]
                  cases readMembers key value count (d :: more) <;> rfl
        · next hend hclose hcomma =>
            obtain _ | ⟨d, more⟩ := front
            · exact absurd rfl hend
            · simp_all

section Loops

variable {close : Char} {stop other : SyntaxError} {part : Reader α} {loop : Nat → Reader (List α)}

theorem Loops.last (hloop : Loops close stop other part loop) (hclose : isSpace close = false)
    {count : Nat} {s tail : List Char} {x : α} (h : part s = .ok (x, close :: tail)) :
    loop (count + 1) s = .ok ([x], tail) := by
  rw [hloop.succ, h]
  simp only [bind, Except.bind, nextPart, skipSpace_cons hclose, if_true]

theorem Loops.next (hloop : Loops close stop other part loop) (hclose : ',' ≠ close)
    {count : Nat} {s more : List Char} {x : α} {c : Char} (h : part s = .ok (x, ',' :: c :: more))
    (hc : isSpace c = false) (hmark : c ≠ close) :
    loop (count + 1) s = (loop count (c :: more)).map fun read => (x :: read.1, read.2) := by
  have hcomma := skipSpace_cons (by decide : isSpace ',' = false) (c :: more)
  rw [hloop.succ, h]
  simp only [bind, Except.bind, nextPart, hcomma, skipSpace_cons hc, hclose, hmark, if_true,
    if_false, Bool.false_eq_true]

theorem length_le_flatMap_comma (text : α → List Char) (items : List α) :
    items.length ≤ (items.flatMap fun item => ',' :: text item).length := by
  induction items with
  | nil => exact Nat.zero_le _
  | cons item rest ih =>
      rw [List.flatMap_cons, List.length_append, List.length_cons, List.length_cons]
      omega

/-- A list is read if each of its parts is and the count does not run out. -/
theorem Loops.write (hloop : Loops close stop other part loop)
    (hclose : close = ']' ∨ close = '\x7d')
    {text : β → List Char} {value : β → α} {first : β} {items : List β}
    (hparts : ∀ item ∈ first :: items, Reads part (text item) (value item)) {count : Nat}
    (hcount : items.length < count) (tail : List Char) :
    loop count (text first ++ ((items.flatMap fun item => ',' :: text item) ++ close :: tail)) =
      .ok ((first :: items).map value, tail) := by
  induction items generalizing first count with
  | nil =>
      obtain ⟨count, rfl⟩ := Nat.exists_eq_add_one_of_ne_zero (Nat.ne_of_gt hcount)
      have hcloser : close ∈ closers ∧ isSpace close = false := by
        rcases hclose with rfl | rfl <;> decide
      have hread := (hparts first List.mem_cons_self).reads _ (closing_cons hcloser.1 tail)
      exact hloop.last hcloser.2 hread
  | cons second items ih =>
      obtain ⟨count, rfl⟩ := Nat.exists_eq_add_one_of_ne_zero (Nat.ne_zero_of_lt hcount)
      have hrest := ih (fun item hitem => hparts item (List.mem_cons_of_mem _ hitem))
        (Nat.lt_of_succ_lt_succ hcount)
      obtain ⟨c, more, htext, hspace, hbracket, hbrace⟩ :=
        (hparts second (List.mem_cons_of_mem _ List.mem_cons_self)).starts
      have hcomma : ',' ≠ close := by
        rcases hclose with rfl | rfl <;> decide
      have hmark : c ≠ close := by
        rcases hclose with rfl | rfl
        · exact hbracket
        · exact hbrace
      rw [htext, List.cons_append] at hrest
      rw [List.flatMap_cons, htext]
      simp only [List.cons_append, List.append_assoc]
      have hread (behind : List Char) := (hparts first List.mem_cons_self).reads (',' :: behind)
        (closing_cons (by decide) behind)
      rw [hloop.next hcomma (hread _) hspace hmark, hrest]
      rfl

end Loops

theorem readArray_write {item : Reader α} {text : β → List Char} {value : β → α} {first : β}
    {items : List β} (hparts : ∀ x ∈ first :: items, Reads item (text x) (value x))
    (tail : List Char) :
    readArray item (text first ++ ((items.flatMap fun x => ',' :: text x) ++ ']' :: tail)) =
      .ok ((first :: items).map value, tail) := by
  have hcount : items.length <
      (text first ++ ((items.flatMap fun x => ',' :: text x) ++ ']' :: tail)).length := by
    have hlength := length_le_flatMap_comma text items
    simp only [List.length_append, List.length_cons]
    omega
  have hloop := (loops_readItems item).write (.inl rfl) hparts hcount tail
  obtain ⟨c, more, htext, hspace, hbracket, -⟩ := (hparts first List.mem_cons_self).starts
  rw [htext, List.cons_append] at hloop ⊢
  rw [readArray, skipSpace_cons hspace]
  split
  · next hnil => cases hnil
  · next hmark => exact absurd (List.cons.inj hmark).1 hbracket
  · exact hloop

/-- The written form of a member. -/
def memberText (text : β → List Char) (entry : String × β) : List Char :=
  quote entry.1.toList ++ ':' :: text entry.2

theorem reads_member {content : Reader α} {text : β → List Char} {value : β → α}
    {entry : String × β} (h : Reads content (text entry.2) (value entry.2)) :
    Reads (readMember readString fun _ => content) (memberText text entry)
      (entry.1, value entry.2) where
  starts := ⟨'"', _, rfl, by decide, by decide, by decide⟩
  reads := by
    intro rest hclosing
    have hquote : memberText text entry ++ rest =
        '"' :: (entry.1.toList.flatMap escape ++ '"' :: ':' :: (text entry.2 ++ rest)) := by
      simp [memberText, quote]
    have hcolon := skipSpace_cons (by decide : isSpace ':' = false) (text entry.2 ++ rest)
    have hvalue := h.reads rest hclosing
    rw [hquote, readMember]
    simp only [readString_quote, hcolon, hvalue, bind, Except.bind]

theorem readObject_write {content : Reader α} {text : β → List Char} {value : β → α}
    {first : String × β} {members : List (String × β)}
    (hparts : ∀ entry ∈ first :: members, Reads content (text entry.2) (value entry.2))
    (tail : List Char) :
    readObject readString (fun _ => content) (memberText text first ++
        ((members.flatMap fun entry => ',' :: memberText text entry) ++ '\x7d' :: tail)) =
      .ok ((first :: members).map fun entry => (entry.1, value entry.2), tail) := by
  have hmembers : ∀ entry ∈ first :: members, Reads (readMember readString fun _ => content)
      (memberText text entry) (entry.1, value entry.2) :=
    fun entry hentry => reads_member (hparts entry hentry)
  have hcount : members.length < (memberText text first ++
      ((members.flatMap fun entry => ',' :: memberText text entry) ++ '\x7d' :: tail)).length := by
    have hlength := length_le_flatMap_comma (memberText text) members
    simp only [List.length_append, List.length_cons]
    omega
  have hloop := (loops_readMembers readString fun _ => content).write (.inr rfl) hmembers
    hcount tail
  obtain ⟨c, more, htext, hspace, -, hbrace⟩ := (hmembers first List.mem_cons_self).starts
  rw [htext, List.cons_append] at hloop ⊢
  rw [readObject, skipSpace_cons hspace]
  split
  · next hnil => cases hnil
  · next hmark => exact absurd (List.cons.inj hmark).1 hbrace
  · exact hloop

theorem collect_eq (members : List (String × α)) :
    collect members = (OrderedMap.ofList members).entries := by
  have hinsert (m : OrderedMap α) :
      members.foldl (fun entries entry => Entries.put entry.1 entry.2 entries) m.entries =
        (m.insertAll members).entries := by
    induction members generalizing m with
    | nil => rfl
    | cons entry rest ih => exact ih (m.insert entry.1 entry.2)
  exact hinsert .empty

theorem collect_of_nodup {members : List (String × α)} (h : (Entries.keys members).Nodup) :
    collect members = members := by
  rw [collect_eq]
  exact OrderedMap.entries_insertAll h

/-! ## Values -/

mutual

/-- The value that is read where the value has been written. -/
def reread : Json → Json
  | .number n => .number n.reread
  | .array items => .array (rereadItems items)
  | .object members => .object (rereadMembers members)
  | value => value

def rereadItems : List Json → List Json
  | [] => []
  | item :: rest => item.reread :: rereadItems rest

def rereadMembers : List (String × Json) → List (String × Json)
  | [] => []
  | (key, value) :: rest => (key, value.reread) :: rereadMembers rest

end

theorem rereadItems_eq_map (items : List Json) : rereadItems items = items.map reread := by
  induction items with
  | nil => rfl
  | cons item rest ih => rw [rereadItems, ih, List.map_cons]

theorem rereadMembers_eq_map (members : List (String × Json)) :
    rereadMembers members = members.map fun entry => (entry.1, entry.2.reread) := by
  induction members with
  | nil => rfl
  | cons entry rest ih => rw [rereadMembers, ih, List.map_cons]

@[simp] theorem keys_rereadMembers (members : List (String × Json)) :
    Entries.keys (rereadMembers members) = Entries.keys members := by
  rw [rereadMembers_eq_map]
  simp [Entries.keys]

theorem writeItems_eq (items : List Json) :
    writeItems items = (items.flatMap fun item => ',' :: item.write) ++ [']'] := by
  induction items with
  | nil => rfl
  | cons item rest ih => simp [writeItems, ih]

theorem writeMembers_eq (members : List (String × Json)) :
    writeMembers members =
      (members.flatMap fun entry => ',' :: memberText write entry) ++ ['\x7d'] := by
  induction members with
  | nil => rfl
  | cons entry rest ih => simp [writeMembers, memberText, ih]

/-- A number is known by its first character, which no other value starts with. -/
theorem reads_number (n : Number) (depth : Nat) :
    Reads (readValue (depth + 1)) n.write (.number n.reread) := by
  obtain ⟨c, more, htext, hc⟩ := n.exists_write_eq_cons
  have hother : ∀ d ∈ [' ', '\t', '\n', '\r', ']', '\x7d', 'n', 't', 'f', '"', '[', '\x7b'],
      c ≠ d := by
    have hmarks : ∀ d ∈ [' ', '\t', '\n', '\r', ']', '\x7d', 'n', 't', 'f', '"', '[', '\x7b'],
        ¬(d = '-' ∨ d.isDigit = true) := by simp
    rintro d hd rfl
    exact hmarks c hd hc
  simp only [List.forall_mem_cons] at hother
  have hspace : isSpace c = false := by simp [isSpace, hother]
  refine ⟨⟨c, more, htext, hspace, by simp [hother], by simp [hother]⟩, fun rest hclosing => ?_⟩
  have hread : readNumber (c :: (more ++ rest)) = .ok (n.reread, rest) := by
    rw [← List.cons_append, ← htext]
    exact readNumber_write n hclosing
  have hvalue : readValue (depth + 1) (c :: (more ++ rest)) =
      (readNumber (c :: (more ++ rest))).map fun read => (.number read.1, read.2) := by
    rw [readValue, skipSpace_cons hspace]
    simp [hother, hc]
  rw [htext, List.cons_append, hvalue, hread]
  rfl

mutual

/-- A value that does not nest deeper than the reader goes is read off the front of a text. -/
theorem reads_write : (value : Json) → {depth : Nat} → value.WellFormed → value.depth ≤ depth →
    Reads (readValue (depth + 1)) value.write value.reread
  | .null, depth, _, _ =>
      ⟨⟨'n', _, rfl, by decide, by decide, by decide⟩, fun _ _ => rfl⟩
  | .bool true, depth, _, _ =>
      ⟨⟨'t', _, rfl, by decide, by decide, by decide⟩, fun _ _ => rfl⟩
  | .bool false, depth, _, _ =>
      ⟨⟨'f', _, rfl, by decide, by decide, by decide⟩, fun _ _ => rfl⟩
  | .number n, depth, _, _ => reads_number n depth
  | .string s, depth, _, _ => by
      refine ⟨⟨'"', _, rfl, by decide, by decide, by decide⟩, fun rest _ => ?_⟩
      have htext : (Json.string s).write ++ rest =
          '"' :: (s.toList.flatMap escape ++ '"' :: rest) := by
        simp [write, quote]
      have hvalue : readValue (depth + 1) ('"' :: (s.toList.flatMap escape ++ '"' :: rest)) =
          (readString (s.toList.flatMap escape ++ '"' :: rest)).map
            fun read => (.string read.1, read.2) := rfl
      rw [htext, hvalue, readString_quote]
      rfl
  | .array items, 0, _, hdepth => absurd hdepth (Nat.not_succ_le_zero _)
  | .array items, depth + 1, hdistinct, hdepth => by
      have hparts := reads_items items hdistinct (Nat.le_of_succ_le_succ hdepth)
      cases items with
      | nil => exact ⟨⟨'[', _, rfl, by decide, by decide, by decide⟩, fun _ _ => rfl⟩
      | cons item rest =>
          refine ⟨⟨'[', _, rfl, by decide, by decide, by decide⟩, fun behind _ => ?_⟩
          have htext : (Json.array (item :: rest)).write ++ behind = '[' :: (item.write ++
              ((rest.flatMap fun item => ',' :: item.write) ++ ']' :: behind)) := by
            simp [write, writeItems_eq]
          have hvalue (s : List Char) : readValue (depth + 2) ('[' :: s) =
              (readArray (readValue (depth + 1)) s).map
                fun read => (.array read.1, read.2) := rfl
          rw [htext, hvalue, readArray_write hparts, ← rereadItems_eq_map]
          rfl
  | .object members, 0, _, hdepth => absurd hdepth (Nat.not_succ_le_zero _)
  | .object members, depth + 1, hdistinct, hdepth => by
      have hparts := reads_members members hdistinct.2 (Nat.le_of_succ_le_succ hdepth)
      cases members with
      | nil => exact ⟨⟨'\x7b', _, rfl, by decide, by decide, by decide⟩, fun _ _ => rfl⟩
      | cons first rest =>
          refine ⟨⟨'\x7b', _, rfl, by decide, by decide, by decide⟩, fun behind _ => ?_⟩
          have htext : (Json.object (first :: rest)).write ++ behind =
              '\x7b' :: (memberText write first ++
                ((rest.flatMap fun entry => ',' :: memberText write entry) ++
                  '\x7d' :: behind)) := by
            simp [write, writeMembers_eq, memberText]
          have hvalue (s : List Char) : readValue (depth + 2) ('\x7b' :: s) =
              (readObject readString (fun _ => readValue (depth + 1)) s).map
                fun read => (.object (collect read.1), read.2) := rfl
          have hkeys : (Entries.keys (rereadMembers (first :: rest))).Nodup := by
            rw [keys_rereadMembers]
            exact hdistinct.1
          rw [htext, hvalue, readObject_write hparts, ← rereadMembers_eq_map]
          simp only [Except.map, collect_of_nodup hkeys, reread]

theorem reads_items : (items : List Json) → {depth : Nat} → ItemsWellFormed items →
    itemsDepth items ≤ depth →
    ∀ item ∈ items, Reads (readValue (depth + 1)) item.write item.reread
  | [], _, _, _ => by simp
  | item :: rest, depth, hdistinct, hdepth => by
      rw [itemsDepth] at hdepth
      have hfirst := reads_write item hdistinct.1 (le_trans (le_max_left _ _) hdepth)
      have hrest := reads_items rest hdistinct.2 (le_trans (le_max_right _ _) hdepth)
      exact List.forall_mem_cons.mpr ⟨hfirst, hrest⟩

theorem reads_members : (members : List (String × Json)) → {depth : Nat} →
    MembersWellFormed members → membersDepth members ≤ depth →
    ∀ entry ∈ members, Reads (readValue (depth + 1)) entry.2.write entry.2.reread
  | [], _, _, _ => by simp
  | (key, value) :: rest, depth, hdistinct, hdepth => by
      rw [membersDepth] at hdepth
      have hfirst := reads_write value hdistinct.1 (le_trans (le_max_left _ _) hdepth)
      have hrest := reads_members rest hdistinct.2 (le_trans (le_max_right _ _) hdepth)
      exact List.forall_mem_cons.mpr ⟨hfirst, hrest⟩

end

theorem skipSpace_eq_nil {blanks : List Char} (h : ∀ c ∈ blanks, isSpace c = true) :
    skipSpace blanks = [] :=
  List.dropWhile_eq_nil_iff.mpr h

theorem closing_of_blanks {blanks : List Char} (h : ∀ c ∈ blanks, isSpace c = true) :
    Closing blanks := by
  intro c hc
  have hblank := h c (List.mem_of_mem_head? hc)
  simp only [isSpace, Bool.or_eq_true, beq_iff_eq] at hblank
  simp only [closers, List.mem_cons]
  tauto

/-- The written form of a document is read back, if the reader goes deep enough. -/
theorem parseChars_write_of_lt {value : Json} (hdistinct : value.WellFormed)
    (hdepth : value.depth < depthLimit) {blanks : List Char}
    (hblanks : ∀ c ∈ blanks, isSpace c = true) :
    parseChars (value.write ++ blanks) = .ok value.reread := by
  have hreads := reads_write value hdistinct (Nat.le_of_lt_succ hdepth)
  have hread : readValue depthLimit (value.write ++ blanks) = .ok (value.reread, blanks) :=
    hreads.reads blanks (closing_of_blanks hblanks)
  rw [parseChars, hread]
  simp only [bind, Except.bind, skipSpace_eq_nil hblanks, if_true]

theorem parse_render_reread {value : Json} (hdistinct : value.WellFormed)
    (hdepth : value.depth < depthLimit) : parse value.render = .ok value.reread := by
  have hread := parseChars_write_of_lt hdistinct hdepth (List.forall_mem_nil _)
  rw [List.append_nil] at hread
  rw [parse, render, String.toList_ofList, hread]

/-! ## Values without doubles -/

/-- The number is no double. -/
def Number.IsWhole : Number → Prop
  | .integer _ _ _ => True
  | .float _ => False

theorem Number.reread_of_isWhole (n : Number) (h : n.IsWhole) : n.reread = n := by
  cases n with
  | integer n lower upper => exact reread_integer lower upper
  | float x => cases h

mutual

/-- No number of the value is a double. -/
def FloatFree : Json → Prop
  | .number n => n.IsWhole
  | .array items => ItemsFloatFree items
  | .object members => MembersFloatFree members
  | _ => True

def ItemsFloatFree : List Json → Prop
  | [] => True
  | item :: rest => item.FloatFree ∧ ItemsFloatFree rest

def MembersFloatFree : List (String × Json) → Prop
  | [] => True
  | (_, value) :: rest => value.FloatFree ∧ MembersFloatFree rest

end

mutual

theorem reread_of_floatFree : (value : Json) → value.FloatFree → value.reread = value
  | .null, _ => rfl
  | .bool _, _ => rfl
  | .string _, _ => rfl
  | .number n, h => by rw [reread, n.reread_of_isWhole h]
  | .array items, h => by rw [reread, rereadItems_of_floatFree items h]
  | .object members, h => by rw [reread, rereadMembers_of_floatFree members h]

theorem rereadItems_of_floatFree : (items : List Json) → ItemsFloatFree items →
    rereadItems items = items
  | [], _ => rfl
  | item :: rest, h => by
      rw [rereadItems, reread_of_floatFree item h.1, rereadItems_of_floatFree rest h.2]

theorem rereadMembers_of_floatFree : (members : List (String × Json)) →
    MembersFloatFree members → rereadMembers members = members
  | [], _ => rfl
  | (key, value) :: rest, h => by
      rw [rereadMembers, reread_of_floatFree value h.1, rereadMembers_of_floatFree rest h.2]

end

theorem parse_render {value : Json} (hwhole : value.FloatFree) (hdistinct : value.WellFormed)
    (hdepth : value.depth < depthLimit) : parse value.render = .ok value := by
  rw [parse_render_reread hdistinct hdepth, reread_of_floatFree value hwhole]

end DataCatalog.Json
