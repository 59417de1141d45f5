import ModularScale.Proofs.Json.Literals
import ModularScale.Proofs.Json.Numbers

/-! # Values that are read back

A value on one line is read back as it was, if its literals have the form in which texts and numbers
are written.
-/

namespace ModularScale.Json

variable {fuel : Nat} {v item : Json} {items : List Json} {name : List Char}
  {fields : List (List Char × Json)} {cs text rest : List Char}

mutual

/-- All literals are escaped texts or numbers. -/
def IsWritten : Json → Prop
  | null => True
  | bool _ => True
  | number literal => IsNumber literal
  | string literal => ∃ text, literal = escape text
  | array items => ItemsWritten items
  | object fields => FieldsWritten fields

def ItemsWritten : List Json → Prop
  | [] => True
  | item :: items => item.IsWritten ∧ ItemsWritten items

def FieldsWritten : List (List Char × Json) → Prop
  | [] => True
  | (name, value) :: fields => (∃ text, name = escape text) ∧ value.IsWritten ∧ FieldsWritten fields

end

/-! ### Steps of the reader -/

/-- What a value starts with: no space, and no bracket that could close what it is in. -/
def Starts (cs : List Char) : Prop :=
  ∃ c tail, cs = c :: tail ∧ isSpace c = false ∧ c ≠ ']' ∧ c ≠ '}'

theorem starts_compact (h : v.IsWritten) (rest : List Char) : Starts (v.compact ++ rest) := by
  cases v with
  | null => exact ⟨'n', _, rfl, by decide⟩
  | bool b => cases b <;> exact ⟨_, _, rfl, by decide⟩
  | number literal =>
    unfold IsWritten at h
    obtain ⟨c, tail, rfl, rfl | hc⟩ := h.exists_head
    · exact ⟨'-', _, rfl, by decide⟩
    · refine ⟨c, _, rfl, ?_, ?_, ?_⟩
      · simp only [isSpace, Bool.or_eq_false_iff, beq_eq_false_iff_ne]
        refine ⟨⟨⟨?_, ?_⟩, ?_⟩, ?_⟩ <;> rintro rfl <;> exact absurd hc (by decide)
      · rintro rfl
        exact absurd hc (by decide)
      · rintro rfl
        exact absurd hc (by decide)
  | string literal => exact ⟨'"', _, rfl, by decide⟩
  | array items => exact ⟨'[', _, rfl, by decide⟩
  | object fields => exact ⟨'{', _, rfl, by decide⟩

theorem Starts.dropSpaces (h : Starts cs) : dropSpaces cs = cs := by
  obtain ⟨c, tail, rfl, hc, -⟩ := h
  rw [Json.dropSpaces, List.dropWhile_cons_of_neg (by simp [hc])]

theorem value?_number (h : IsNumber cs) (hr : Css.startsWith isNumeric rest = false) :
    value? (fuel + 1) (cs ++ rest) = some (number cs, rest) := by
  have hs : Starts (cs ++ rest) := starts_compact (v := number cs) (by rwa [IsWritten]) rest
  have hread := numberLiteral?_append h hr
  obtain ⟨c, tail, rfl, hc⟩ := h.exists_head
  have hne : ∀ d : Char, d ≠ '-' → d.isDigit = false → c ≠ d := by
    rintro d hd hdigit rfl
    rcases hc with rfl | hc
    · exact hd rfl
    · rw [hc] at hdigit
      cases hdigit
  unfold value?
  rw [hs.dropSpaces]
  -- The first character of a number starts no other value.
  split
  case h_7 => rw [hread, Option.map_some]
  all_goals
    rename_i heq
    rw [List.cons_append, List.cons.injEq] at heq
    exact absurd heq.1 (hne _ (by decide) (by decide))

theorem value?_string (text rest : List Char) :
    value? (fuel + 1) (quote (escape text) ++ rest) = some (string (escape text), rest) := by
  have hread := stringLiteral?_escape text rest
  simp only [quote, List.append_assoc, List.cons_append, List.nil_append, value?, dropSpaces, isSpace,
    List.dropWhile_cons, Char.reduceBEq, Bool.or_self, Bool.false_eq_true, if_false]
  rw [hread, Option.map_some]

theorem value?_array (hs : Starts cs) (h : items? fuel cs = some (items, rest)) :
    value? (fuel + 1) ('[' :: cs) = some (array items, rest) := by
  have hd := hs.dropSpaces
  obtain ⟨c, tail, rfl, -, hc, -⟩ := hs
  rw [value?, Starts.dropSpaces ⟨'[', _, rfl, by decide⟩]
  simp only [hd]
  split
  case h_1 heq => exact absurd (List.cons.inj heq).1 hc
  case h_2 => rw [h, Option.map_some]

theorem value?_object (hs : Starts cs) (h : fields? fuel cs = some (fields, rest)) :
    value? (fuel + 1) ('{' :: cs) = some (object fields, rest) := by
  have hd := hs.dropSpaces
  obtain ⟨c, tail, rfl, -, -, hc⟩ := hs
  rw [value?, Starts.dropSpaces ⟨'{', _, rfl, by decide⟩]
  simp only [hd]
  split
  case h_1 heq => exact absurd (List.cons.inj heq).1 hc
  case h_2 => rw [h, Option.map_some]

theorem items?_last (h : value? fuel cs = some (item, ']' :: rest)) :
    items? (fuel + 1) cs = some ([item], rest) := by
  rw [items?, h]
  rfl

theorem items?_cons (h : value? fuel cs = some (item, ',' :: rest))
    (hs : items? fuel rest = some (items, text)) :
    items? (fuel + 1) cs = some (item :: items, text) := by
  rw [items?, h]
  simp only [Option.bind_eq_bind, Option.bind_some]
  rw [show dropSpaces (',' :: rest) = ',' :: rest from rfl]
  simp only [hs]
  rfl

theorem fields?_last (h : value? fuel cs = some (v, '}' :: rest)) :
    fields? (fuel + 1) (quote (escape name) ++ ':' :: cs) = some ([(escape name, v)], rest) := by
  have hread := stringLiteral?_escape name (':' :: cs)
  simp only [quote, List.append_assoc, List.cons_append, List.nil_append, fields?]
  rw [show ∀ cs, dropSpaces ('"' :: cs) = '"' :: cs from fun _ => rfl]
  simp only [hread, Option.bind_eq_bind, Option.bind_some]
  rw [show dropSpaces (':' :: cs) = ':' :: cs from rfl]
  simp only [h, Option.bind_some]
  rfl

theorem fields?_cons (h : value? fuel cs = some (v, ',' :: rest))
    (hs : fields? fuel rest = some (fields, text)) :
    fields? (fuel + 1) (quote (escape name) ++ ':' :: cs) =
      some ((escape name, v) :: fields, text) := by
  have hread := stringLiteral?_escape name (':' :: cs)
  simp only [quote, List.append_assoc, List.cons_append, List.nil_append, fields?]
  rw [show ∀ cs, dropSpaces ('"' :: cs) = '"' :: cs from fun _ => rfl]
  simp only [hread, Option.bind_eq_bind, Option.bind_some]
  rw [show dropSpaces (':' :: cs) = ':' :: cs from rfl]
  simp only [h, Option.bind_some]
  rw [show dropSpaces (',' :: rest) = ',' :: rest from rfl]
  simp only [hs]
  rfl

/-! ### Whole values -/

mutual

theorem value?_compact : ∀ (v : Json) (fuel : Nat) (rest : List Char), v.IsWritten →
    2 * v.compact.length ≤ fuel → Css.startsWith isNumeric rest = false →
    value? fuel (v.compact ++ rest) = some (v, rest)
  | null, fuel + 1, rest, _, _, _ => rfl
  | bool true, fuel + 1, rest, _, _, _ => rfl
  | bool false, fuel + 1, rest, _, _, _ => rfl
  | number literal, fuel + 1, rest, h, _, hr => value?_number (by rwa [IsWritten] at h) hr
  | string literal, fuel + 1, rest, h, _, _ => by
    obtain ⟨text, rfl⟩ : ∃ text, literal = escape text := by rwa [IsWritten] at h
    exact value?_string text rest
  | array [], fuel + 1, rest, _, _, _ => rfl
  | array (item :: items), fuel + 1, rest, h, hf, _ => by
    rw [IsWritten] at h
    rw [compact, List.length_cons] at hf
    have hs : Starts (compactItems (item :: items) ++ rest) := by
      cases items with
      | nil => simpa [compactItems] using starts_compact h.1 (']' :: rest)
      | cons => simpa [compactItems] using starts_compact h.1 _
    exact value?_array hs (items?_compactItems (item :: items) fuel rest (List.cons_ne_nil _ _) h
      (by omega))
  | object [], fuel + 1, rest, _, _, _ => rfl
  | object ((name, value) :: fields), fuel + 1, rest, h, hf, _ => by
    rw [IsWritten] at h
    rw [compact, List.length_cons] at hf
    have hs : Starts (compactFields ((name, value) :: fields) ++ rest) := by
      cases fields with
      | nil => exact ⟨'"', _, rfl, by decide⟩
      | cons => exact ⟨'"', _, rfl, by decide⟩
    exact value?_object hs (fields?_compactFields ((name, value) :: fields) fuel rest
      (List.cons_ne_nil _ _) h (by omega))
  | v, 0, rest, h, hf, _ => by
    obtain ⟨c, tail, hc, -⟩ := starts_compact h []
    rw [List.append_nil] at hc
    rw [hc, List.length_cons] at hf
    omega

theorem items?_compactItems : ∀ (items : List Json) (fuel : Nat) (rest : List Char), items ≠ [] →
    ItemsWritten items → 2 * (compactItems items).length ≤ fuel →
    items? fuel (compactItems items ++ rest) = some (items, rest)
  | [item], fuel + 1, rest, _, h, hf => by
    rw [compactItems, List.length_append, List.length_singleton] at hf
    rw [compactItems, List.append_assoc]
    exact items?_last (value?_compact item fuel _ h.1 (by omega) rfl)
  | item :: next :: items, fuel + 1, rest, _, h, hf => by
    rw [compactItems, List.length_append, List.length_cons] at hf
    · rw [compactItems, List.append_assoc]
      · exact items?_cons (value?_compact item fuel _ h.1 (by omega) rfl)
          (items?_compactItems (next :: items) fuel rest (List.cons_ne_nil _ _) h.2 (by omega))
      · simp
    · simp
  | item :: items, 0, rest, _, h, hf => by
    cases items <;> simp [compactItems] at hf

theorem fields?_compactFields : ∀ (fields : List (List Char × Json)) (fuel : Nat)
    (rest : List Char), fields ≠ [] → FieldsWritten fields →
    2 * (compactFields fields).length ≤ fuel →
    fields? fuel (compactFields fields ++ rest) = some (fields, rest)
  | [(name, value)], fuel + 1, rest, _, h, hf => by
    obtain ⟨⟨text, rfl⟩, hv, -⟩ := h
    simp only [compactFields, List.length_append, List.length_cons, List.length_nil] at hf
    simp only [compactFields, List.append_assoc, List.cons_append]
    exact fields?_last (value?_compact value fuel _ hv (by omega) rfl)
  | (name, value) :: next :: fields, fuel + 1, rest, _, h, hf => by
    obtain ⟨⟨text, rfl⟩, hv, hs⟩ := h
    simp only [compactFields, List.length_append, List.length_cons] at hf
    simp only [compactFields, List.append_assoc, List.cons_append]
    exact fields?_cons (value?_compact value fuel _ hv (by omega) rfl)
      (fields?_compactFields (next :: fields) fuel rest (List.cons_ne_nil _ _) hs (by omega))
  | (name, value) :: fields, 0, rest, _, h, hf => by
    cases fields <;> simp [compactFields, quote] at hf

end

/-- A value whose literals are well formed is read back from its text. -/
theorem ofChars?_compact (h : v.IsWritten) : ofChars? v.compact = some v := by
  have hread := value?_compact v (2 * v.compact.length + 2) [] h (by omega) rfl
  rw [List.append_nil] at hread
  rw [ofChars?, hread]
  rfl

end ModularScale.Json
