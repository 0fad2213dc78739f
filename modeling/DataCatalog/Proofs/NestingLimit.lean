import DataCatalog.Proofs.JsonRoundTrip
import DataCatalog.Proofs.PackRoundTrip

/-!
# The nesting limit of the reader

What is read has no key twice in an object and nests less deep than the reader goes.  A reader that
goes deeper reads the same, except where the shallower one refuses the text as nested too deeply.
So a written document that nests too deeply is refused for this reason and no other.
-/

namespace DataCatalog.Json

variable {α β : Type}

/-! ## A reader beside one that goes deeper -/

/-- Either the first reader finds the text nested too deeply, or both do the same; and what the
first one reads satisfies `p`. -/
inductive Limited (p : α → Prop) :
    Except SyntaxError (α × List Char) → Except SyntaxError (α × List Char) → Prop
  | tooDeep (y : Except SyntaxError (α × List Char)) : Limited p (.error .tooDeep) y
  | error (e : SyntaxError) : Limited p (.error e) (.error e)
  | ok {x : α} (h : p x) (rest : List Char) : Limited p (.ok (x, rest)) (.ok (x, rest))

namespace Limited

variable {p : α → Prop} {q : β → Prop} {x y : Except SyntaxError (α × List Char)}

theorem self (h : ∀ a rest, x = .ok (a, rest) → p a) : Limited p x x := by
  cases x with
  | error e => exact .error e
  | ok read => exact .ok (h read.1 read.2 rfl) read.2

theorem bind {f g : α × List Char → Except SyntaxError (β × List Char)} (h : Limited p x y)
    (hfg : ∀ a rest, p a → Limited q (f (a, rest)) (g (a, rest))) :
    Limited q (x >>= f) (y >>= g) := by
  cases h with
  | tooDeep y => exact .tooDeep _
  | error e => exact .error e
  | ok ha rest => exact hfg _ rest ha

theorem map {f : α → β} (h : Limited p x y) (hf : ∀ a, p a → q (f a)) :
    Limited q (x.map fun read => (f read.1, read.2)) (y.map fun read => (f read.1, read.2)) := by
  cases h with
  | tooDeep y => exact .tooDeep _
  | error e => exact .error e
  | ok ha rest => exact .ok (hf _ ha) rest

theorem ite {c : Prop} [Decidable c] {x' y' : Except SyntaxError (α × List Char)}
    (htrue : c → Limited p x y) (hfalse : ¬c → Limited p x' y') :
    Limited p (if c then x else x') (if c then y else y') := by
  split
  · next h => exact htrue h
  · next h => exact hfalse h

theorem result (h : Limited p x y) {a : α} {rest : List Char} (hx : x = .ok (a, rest)) : p a := by
  cases h with
  | tooDeep y => cases hx
  | error e => cases hx
  | ok ha rest =>
      cases hx
      exact ha

theorem tooDeep_of_not {a : α} {rest : List Char} (h : Limited p x (.ok (a, rest)))
    (ha : ¬p a) : x = .error .tooDeep := by
  cases h with
  | tooDeep y => rfl
  | ok hself rest => exact absurd hself ha

end Limited

/-- The first reader goes less deep than the second one on every text. -/
def Limits (p : α → Prop) (shallow deep : Reader α) : Prop :=
  ∀ s, Limited p (shallow s) (deep s)

section Lists

variable {close : Char} {stop other : SyntaxError} {p : α → Prop} {shallow deep : Reader α}

theorem Loops.limits {loop loop' : Nat → Reader (List α)}
    (hloop : Loops close stop other shallow loop) (hloop' : Loops close stop other deep loop') (h : Limits p shallow deep) (count : Nat) :
    Limits (fun xs => ∀ x ∈ xs, p x) (loop count) (loop' count) := by
  induction count with
  | zero =>
      intro s
      rw [hloop.zero, hloop'.zero]
      exact .error stop
  | succ count ih =>
      intro s
      rw [hloop.succ, hloop'.succ]
      refine (h s).bind fun x rest hx => ?_
      have hnext : Limited (fun _ => True) (nextPart close stop other rest)
          (nextPart close stop other rest) := .self fun _ _ _ => trivial
      refine hnext.bind fun last tail _ => ?_
      cases last with
      | true => exact .ok (List.forall_mem_singleton.mpr hx) tail
      | false => exact (ih tail).map fun xs hxs => List.forall_mem_cons.mpr ⟨hx, hxs⟩

theorem limits_readArray (h : Limits p shallow deep) :
    Limits (fun items => ∀ x ∈ items, p x) (readArray shallow) (readArray deep) := by
  intro s
  unfold readArray
  split
  · exact .error _
  · exact .ok (List.forall_mem_nil _) _
  · exact (loops_readItems shallow).limits (loops_readItems deep) h _ _

theorem limits_readMember (h : Limits p shallow deep) :
    Limits (fun entry => p entry.2) (readMember readString fun _ => shallow)
      (readMember readString fun _ => deep) := by
  intro s
  unfold readMember
  split
  · next rest =>
      have hkey : Limited (fun _ => True) (readString rest) (readString rest) :=
        .self fun _ _ _ => trivial
      refine hkey.bind fun name behind _ => ?_
      dsimp only
      split
      · exact .error _
      · refine (h _).bind fun value tail hvalue => ?_
        exact .ok (x := (name, value)) hvalue tail
      · exact .error _
  · exact .error _

theorem limits_readObject (h : Limits p shallow deep) :
    Limits (fun members => ∀ entry ∈ members, p entry.2) (readObject readString fun _ => shallow)
      (readObject readString fun _ => deep) := by
  intro s
  unfold readObject
  split
  · exact .error _
  · exact .ok (List.forall_mem_nil _) _
  · exact (loops_readMembers readString fun _ => shallow).limits
      (loops_readMembers readString fun _ => deep) (limits_readMember h) _ _

end Lists

/-! ## Values -/

theorem itemsDepth_le_iff {items : List Json} {n : Nat} :
    itemsDepth items ≤ n ↔ ∀ item ∈ items, item.depth ≤ n := by
  induction items with
  | nil => simp [itemsDepth]
  | cons item rest ih => rw [itemsDepth, max_le_iff, ih, List.forall_mem_cons]

theorem membersDepth_le_iff {members : List (String × Json)} {n : Nat} :
    membersDepth members ≤ n ↔ ∀ entry ∈ members, entry.2.depth ≤ n := by
  induction members with
  | nil => simp [membersDepth]
  | cons entry rest ih => rw [membersDepth, max_le_iff, ih, List.forall_mem_cons]

/-- No key stands twice in an object, and at most `n` arrays and objects are nested. -/
def Fits (n : Nat) (value : Json) : Prop :=
  value.WellFormed ∧ value.depth ≤ n

theorem fits_array {n : Nat} {items : List Json} (h : ∀ item ∈ items, item.Fits n) :
    (array items).Fits (n + 1) := by
  have hdistinct : (array items).WellFormed :=
    wellFormed_array_iff.mpr fun item hitem => (h item hitem).1
  have hdepth : itemsDepth items ≤ n := itemsDepth_le_iff.mpr fun item hitem => (h item hitem).2
  exact ⟨hdistinct, Nat.succ_le_succ hdepth⟩

theorem fits_collect {n : Nat} {members : List (String × Json)}
    (h : ∀ entry ∈ members, entry.2.Fits n) : (object (collect members)).Fits (n + 1) := by
  have hmem : ∀ entry ∈ collect members, entry.2.Fits n := by
    intro entry hentry
    rw [collect_eq] at hentry
    exact h entry (OrderedMap.mem_of_mem_ofList hentry)
  have hkeys : (Entries.keys (collect members)).Nodup := by
    rw [collect_eq]
    exact (OrderedMap.ofList members).distinct
  have hdistinct : (object (collect members)).WellFormed :=
    wellFormed_object_iff.mpr ⟨hkeys, fun entry hentry => (hmem entry hentry).1⟩
  have hdepth : membersDepth (collect members) ≤ n :=
    membersDepth_le_iff.mpr fun entry hentry => (hmem entry hentry).2
  exact ⟨hdistinct, Nat.succ_le_succ hdepth⟩

theorem depth_of_plain {value : Json} (h : value.Plain) : value.depth = 0 := by
  cases value with
  | array items => cases h
  | object members => cases h
  | _ => rfl

theorem fits_of_plain {value : Json} (h : value.Plain) (n : Nat) : value.Fits n :=
  ⟨wellFormed_of_plain h, le_of_eq_of_le (depth_of_plain h) (Nat.zero_le n)⟩

theorem limited_plain {x : Except SyntaxError α} {f : α → Json × List Char}
    (hf : ∀ a, (f a).1.Plain) (n : Nat) : Limited (Fits n) (x.map f) (x.map f) := by
  cases x with
  | error e => exact .error e
  | ok a => exact .ok (fits_of_plain (hf a) n) (f a).2

/-- Only brackets tell the two readers apart. -/
theorem limits_readValue_succ {n m : Nat}
    (hinner : ∀ k, n = k + 1 → m ≠ 0 ∧ Limits (Fits k) (readValue n) (readValue m)) :
    Limits (Fits n) (readValue (n + 1)) (readValue (m + 1)) := by
  intro s
  rw [readValue, readValue]
  split
  · exact .error _
  · next c rest _ =>
      iterate 4
        apply Limited.ite
        · intro _
          apply limited_plain
          intro read
          trivial
        intro _
      apply Limited.ite
      · intro _
        cases n with
        | zero => exact .tooDeep _
        | succ k =>
            obtain ⟨hm, hvalues⟩ := hinner k rfl
            rw [if_neg k.succ_ne_zero, if_neg hm]
            exact (limits_readArray hvalues rest).map fun items hitems => fits_array hitems
      intro _
      apply Limited.ite
      · intro _
        cases n with
        | zero => exact .tooDeep _
        | succ k =>
            obtain ⟨hm, hvalues⟩ := hinner k rfl
            rw [if_neg k.succ_ne_zero, if_neg hm]
            exact (limits_readObject hvalues rest).map fun members hmembers => fits_collect hmembers
      intro _
      apply Limited.ite
      · intro _
        apply limited_plain
        intro read
        trivial
      · exact fun _ => .error _

theorem limits_readValue {n m : Nat} (h : n ≤ m) :
    Limits (Fits n) (readValue (n + 1)) (readValue (m + 1)) := by
  induction n generalizing m with
  | zero =>
      apply limits_readValue_succ
      intro k hk
      cases hk
  | succ n ih =>
      apply limits_readValue_succ
      rintro k hk
      obtain rfl := Nat.succ.inj hk
      cases m with
      | zero => cases h
      | succ m => exact ⟨m.succ_ne_zero, ih (Nat.le_of_succ_le_succ h)⟩

/-! ## Documents -/

theorem fits_of_parse {text : String} {value : Json} (h : parse text = .ok value) :
    value.Fits 127 := by
  have hread := limits_readValue (le_refl 127) text.toList
  rw [parse, parseChars] at h
  cases hvalue : readValue depthLimit text.toList with
  | error e =>
      rw [hvalue] at h
      cases h
  | ok read =>
      have hfits : read.1.Fits 127 := hread.result hvalue
      rw [hvalue] at h
      simp only [bind, Except.bind] at h
      split at h
      · cases h
        exact hfits
      · cases h

mutual

theorem depth_reread : (value : Json) → value.reread.depth = value.depth
  | .null => rfl
  | .bool _ => rfl
  | .string _ => rfl
  | .number _ => rfl
  | .array items => congrArg (· + 1) (itemsDepth_rereadItems items)
  | .object members => congrArg (· + 1) (membersDepth_rereadMembers members)

theorem itemsDepth_rereadItems : (items : List Json) →
    itemsDepth (rereadItems items) = itemsDepth items
  | [] => rfl
  | item :: rest => by
      rw [rereadItems, itemsDepth, itemsDepth, depth_reread item, itemsDepth_rereadItems rest]

theorem membersDepth_rereadMembers : (members : List (String × Json)) →
    membersDepth (rereadMembers members) = membersDepth members
  | [] => rfl
  | (key, value) :: rest => by
      rw [rereadMembers, membersDepth, membersDepth, depth_reread value,
        membersDepth_rereadMembers rest]

end

/-- A written document is read back if it does not nest too deeply, and else refused for that. -/
theorem parseChars_write {value : Json} (hdistinct : value.WellFormed) {blanks : List Char}
    (hblanks : ∀ c ∈ blanks, isSpace c = true) :
    parseChars (value.write ++ blanks) =
      if value.depth < depthLimit then .ok value.reread else .error .tooDeep := by
  split
  · next hdepth => exact parseChars_write_of_lt hdistinct hdepth hblanks
  · next hdepth =>
      have hlimit : 128 ≤ value.depth := Nat.le_of_not_lt hdepth
      have hdeep : readValue (value.depth + 1) (value.write ++ blanks) =
          .ok (value.reread, blanks) :=
        (reads_write value hdistinct le_rfl).reads blanks (closing_of_blanks hblanks)
      have hlimited := limits_readValue (Nat.le_of_succ_le hlimit) (value.write ++ blanks)
      rw [hdeep] at hlimited
      have hread : readValue depthLimit (value.write ++ blanks) = .error .tooDeep := by
        apply hlimited.tooDeep_of_not
        intro hfits
        have hle : value.reread.depth ≤ 127 := hfits.2
        rw [depth_reread] at hle
        omega
      rw [parseChars, hread]
      rfl

end DataCatalog.Json
