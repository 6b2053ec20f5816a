/-
  LightTable.Table.Rereading
  ──────────────────────────
  When two flat tables have one text.

  Nothing is escaped, so a key may contain the `"] = ` that ends keys, and a
  string value the `",\n["` that separates entries; and of a boolean only the
  truth of its `int` is printed.  A text can then be read in several ways, and
  the ways are connected by three moves: two entries become one whose key runs
  on to the end of the second key, the `"] = "` at which a string value begins
  is taken to be a later one, and an `int` is another of the same truth
  (`bodyText_eq_iff`).  Without such bytes and `int`s the text identifies the
  table (`plain_of_bodyText`).
-/
import LightTable.Table.Serialize

namespace LightTable

open Framing

variable {l l' : List FlatEntry}

/-! ## §1. Other readings of a text. -/

/-- What stands between a value and the next key: `,\n["`. -/
def nextKey : Bytes := [44, 10, 91, 34]

/-- The entries `l'` are another reading of the text of `l`. -/
inductive Rereads : List FlatEntry → List FlatEntry → Prop where
  | refl (l : List FlatEntry) : Rereads l l
  | symm {l l' : List FlatEntry} (h : Rereads l l') : Rereads l' l
  | trans {l l' l'' : List FlatEntry} (h : Rereads l l') (h' : Rereads l' l'') : Rereads l l''
  /-- The entries after the first are read in another way. -/
  | rest (e : FlatEntry) {l l' : List FlatEntry} (h : Rereads l l') : Rereads (e :: l) (e :: l')
  /-- The first value and the second key belong to the first key. -/
  | merge (k k' : Bytes) (v v' : FlatValue) (l : List FlatEntry) :
      Rereads (⟨k, v⟩ :: ⟨k', v'⟩ :: l) (⟨k ++ keyEnd ++ v.text ++ nextKey ++ k', v'⟩ :: l)
  /-- The key ends at an earlier `"] = `; what follows is in the value. -/
  | shift (k y s s' : Bytes) (l : List FlatEntry) (h : y ++ keyEnd ++ 34 :: s = 34 :: s') :
      Rereads (⟨k ++ keyEnd ++ y, .string s⟩ :: l) (⟨k, .string s'⟩ :: l)
  /-- The `int` is another one, of the same truth. -/
  | truth (k : Bytes) (b b' : Int32) (l : List FlatEntry) (h : b ≠ 0 ↔ b' ≠ 0) :
      Rereads (⟨k, .boolean b⟩ :: l) (⟨k, .boolean b'⟩ :: l)

/-- The two texts of a boolean. -/
theorem FlatValue.text_boolean (b : Int32) :
    (b ≠ 0 ∧ (FlatValue.boolean b).text = [116, 114, 117, 101])
      ∨ (¬ b ≠ 0 ∧ (FlatValue.boolean b).text = [102, 97, 108, 115, 101]) := by
  unfold FlatValue.text
  by_cases hb : b ≠ 0
  · exact Or.inl ⟨hb, if_pos hb⟩
  · exact Or.inr ⟨hb, if_neg hb⟩

/-- Booleans have one text exactly when they have one truth. -/
theorem FlatValue.text_boolean_eq {b b' : Int32} :
    (FlatValue.boolean b).text = (FlatValue.boolean b').text ↔ (b ≠ 0 ↔ b' ≠ 0) := by
  rcases FlatValue.text_boolean b with ⟨hb, ht⟩ | ⟨hb, ht⟩ <;>
    rcases FlatValue.text_boolean b' with ⟨hb', ht'⟩ | ⟨hb', ht'⟩ <;>
    simp [ht, ht', hb, hb']

/-- No text of a boolean begins with a quote, and each ends with an `e`. -/
theorem FlatValue.text_boolean_ends (b : Int32) :
    (34 : UInt8) ∉ (FlatValue.boolean b).text ∧ (FlatValue.boolean b).text.getLast? = some 101 := by
  rcases FlatValue.text_boolean b with ⟨-, ht⟩ | ⟨-, ht⟩ <;> rw [ht] <;> decide

theorem bodyText_cons (e : FlatEntry) (l : List FlatEntry) :
    bodyText (e :: l) = e.text ++ bodyText l := List.flatMap_cons

/-- Another reading has the same text. -/
theorem Rereads.bodyText_eq (h : Rereads l l') : bodyText l = bodyText l' := by
  induction h with
  | refl l => rfl
  | symm _ ih => exact ih.symm
  | trans _ _ ih ih' => exact ih.trans ih'
  | rest e _ ih => rw [bodyText_cons, bodyText_cons, ih]
  | merge k k' v v' l =>
    rw [bodyText_cons, bodyText_cons, bodyText_cons]
    unfold FlatEntry.text nextKey
    simp only [List.append_assoc, List.cons_append, List.nil_append]
  | shift k y s s' l h =>
    have htext : y ++ keyEnd ++ (FlatValue.string s).text = (FlatValue.string s').text := by
      show y ++ keyEnd ++ (34 :: s ++ [34]) = 34 :: s' ++ [34]
      rw [← h]
      simp only [List.append_assoc, List.cons_append]
    rw [bodyText_cons, bodyText_cons]
    unfold FlatEntry.text
    rw [← htext]
    simp only [List.append_assoc]
  | truth k b b' l h =>
    rw [bodyText_cons, bodyText_cons]
    unfold FlatEntry.text
    rw [FlatValue.text_boolean_eq.mpr h]

/-- Every list of entries can be read as one entry. -/
theorem rereads_single (e : FlatEntry) (l : List FlatEntry) : ∃ e', Rereads (e :: l) [e'] := by
  induction l generalizing e with
  | nil => exact ⟨e, .refl [e]⟩
  | cons e₂ l ih =>
    obtain ⟨e', h⟩ := ih ⟨e.key ++ keyEnd ++ e.value.text ++ nextKey ++ e₂.key, e₂.value⟩
    exact ⟨e', (Rereads.merge e.key e₂.key e.value e₂.value l).trans h⟩

theorem keyEnd_marker : Marker keyEnd := ⟨34, [93, 32, 61, 32], rfl, by decide⟩

/-- A value that runs on past a `"] = ` to the text of a value is a string, and
so is the other one. -/
theorem FlatValue.of_text_eq {v v' : FlatValue} {y : Bytes} (h : v.text = y ++ keyEnd ++ v'.text) :
    ∃ s s', v = .string s ∧ v' = .string s' ∧ 34 :: s = y ++ keyEnd ++ 34 :: s' := by
  have hquote : (34 : UInt8) ∈ v.text := by
    rw [h]
    exact List.mem_append.mpr (Or.inl (List.mem_append.mpr (Or.inr (by decide))))
  cases v with
  | boolean b => exact absurd hquote (FlatValue.text_boolean_ends b).1
  | string s =>
    have hlast := congrArg List.getLast? h
    have h : (34 :: s) ++ [34] = y ++ keyEnd ++ v'.text := h
    cases v' with
    | boolean b =>
      -- the last letter of a boolean is no quote
      have hlast : ((34 :: s) ++ [34]).getLast? = (y ++ keyEnd ++ (FlatValue.boolean b).text).getLast? :=
        hlast
      rw [List.getLast?_append, List.getLast?_append, (FlatValue.text_boolean_ends b).2] at hlast
      have hlast : some (34 : UInt8) = some 101 := hlast
      exact absurd hlast (by decide)
    | string s' =>
      refine ⟨s, s', rfl, rfl, ?_⟩
      have h : (34 :: s) ++ [34] = (y ++ keyEnd ++ 34 :: s') ++ [34] := by
        rw [h]
        show y ++ keyEnd ++ (34 :: s' ++ [34]) = _
        simp only [List.append_assoc, List.cons_append]
      exact List.append_cancel_right h

theorem FlatValue.text_ne (b : Int32) (s : Bytes) :
    (FlatValue.boolean b).text ≠ (FlatValue.string s).text := by
  intro h
  have hquote : (34 : UInt8) ∈ (FlatValue.boolean b).text := by
    rw [h]
    exact List.mem_cons_self
  exact (FlatValue.text_boolean_ends b).1 hquote

theorem FlatValue.text_string_inj {s s' : Bytes}
    (h : (FlatValue.string s).text = (FlatValue.string s').text) : s = s' := by
  have h : (34 :: s) ++ [34] = (34 :: s') ++ [34] := h
  exact (List.cons.inj (List.append_cancel_right h)).2

/-- Values with one text, behind one key. -/
theorem rereads_value (k : Bytes) {v v' : FlatValue} (h : v.text = v'.text) :
    Rereads [⟨k, v⟩] [⟨k, v'⟩] := by
  cases v with
  | boolean b =>
    cases v' with
    | boolean b' => exact .truth k b b' [] (FlatValue.text_boolean_eq.mp h)
    | string s' => exact absurd h (FlatValue.text_ne b s')
  | string s =>
    cases v' with
    | boolean b' => exact absurd h.symm (FlatValue.text_ne b' s)
    | string s' =>
      rw [FlatValue.text_string_inj h]
      exact .refl _

/-- Two single entries with one text. -/
theorem rereads_of_single {e e' : FlatEntry} (h : bodyText [e] = bodyText [e']) :
    Rereads [e] [e'] := by
  obtain ⟨k, v⟩ := e
  obtain ⟨k', v'⟩ := e'
  rw [bodyText_cons, bodyText_cons] at h
  have h : [91, 34] ++ k ++ keyEnd ++ v.text ++ [44, 10] = [91, 34] ++ k' ++ keyEnd ++ v'.text ++ [44, 10] :=
    List.append_cancel_right h
  have hcut : k ++ keyEnd ++ v.text = k' ++ keyEnd ++ v'.text := by
    have h := List.append_cancel_right h
    simp only [List.append_assoc, List.append_cancel_left_eq] at h
    simpa only [List.append_assoc] using h
  -- where the two keys end
  rcases keyEnd_marker.split hcut with ⟨rfl, hv⟩ | ⟨y, rfl, hv⟩ | ⟨y, rfl, hv⟩
  · exact rereads_value k hv
  · obtain ⟨s, s', rfl, rfl, hs⟩ := FlatValue.of_text_eq hv
    exact (Rereads.shift k y s' s [] hs.symm).symm
  · obtain ⟨s, s', rfl, rfl, hs⟩ := FlatValue.of_text_eq hv
    exact .shift k' y s' s [] hs.symm

/-- Two lists of entries have one text exactly when each is another reading of
the other. -/
theorem bodyText_eq_iff : bodyText l = bodyText l' ↔ Rereads l l' := by
  constructor
  · intro h
    have hne : ∀ (e : FlatEntry) (l : List FlatEntry), bodyText (e :: l) ≠ bodyText [] := by
      intro e l hnil
      have hlen := length_le_bodyText (e :: l)
      rw [hnil] at hlen
      exact absurd hlen (Nat.not_succ_le_zero _)
    cases l with
    | nil =>
      cases l' with
      | nil => exact .refl []
      | cons e' l' => exact absurd h.symm (hne e' l')
    | cons e l =>
      cases l' with
      | nil => exact absurd h (hne e l)
      | cons e' l' =>
        obtain ⟨x, hx⟩ := rereads_single e l
        obtain ⟨x', hx'⟩ := rereads_single e' l'
        have hsingle : bodyText [x] = bodyText [x'] := by
          rw [← hx.bodyText_eq, ← hx'.bodyText_eq, h]
        exact (hx.trans (rereads_of_single hsingle)).trans hx'.symm
  · exact Rereads.bodyText_eq

theorem flatText_eq_iff : flatText l = flatText l' ↔ Rereads l l' := by
  rw [← bodyText_eq_iff]
  unfold flatText
  rw [List.append_left_inj, List.append_right_inj]

/-! ## §2. Texts that have one reading. -/

/-- What stands between a string value and the next entry, up to its bracket. -/
def valueEnd : Bytes := [34, 44, 10]

/-- A boolean that is 0 or 1, a string that does not contain `",\n[`. -/
def FlatValue.Plain : FlatValue → Prop
  | .boolean b => b = 0 ∨ b = 1
  | .string s => ¬ valueEnd ++ [91] <:+: s

/-- The value is plain, and the key does not contain `"] = `. -/
def FlatEntry.Plain (e : FlatEntry) : Prop := ¬ keyEnd <:+: e.key ∧ e.value.Plain

instance (v : FlatValue) : Decidable v.Plain :=
  match v with
  | .boolean b => inferInstanceAs (Decidable (b = 0 ∨ b = 1))
  | .string s => inferInstanceAs (Decidable (¬ valueEnd ++ [91] <:+: s))

instance (e : FlatEntry) : Decidable e.Plain := inferInstanceAs (Decidable (_ ∧ _))

theorem valueEnd_marker : Marker valueEnd := ⟨34, [44, 10], rfl, by decide⟩

/-- The text of entries begins with the bracket of the first one. -/
theorem bodyText_head {y z : Bytes} (h : bodyText l = y ++ valueEnd ++ z) : ∃ y', y = 91 :: y' := by
  cases l with
  | nil =>
    have hlen := congrArg List.length h
    rw [List.length_append, List.length_append] at hlen
    have hpos : (0 : Nat) = y.length + 3 + z.length := hlen
    omega
  | cons e l =>
    rw [bodyText_cons] at h
    cases y with
    | nil => exact absurd (List.cons.inj h).1 (by decide)
    | cons q y => exact ⟨y, by rw [← (List.cons.inj h).1]⟩

/-- A string value that runs on past the end of a value contains that end and
the bracket that follows. -/
theorem valueEnd_within {s s' z Z : Bytes} (hs : s' = s ++ valueEnd ++ z)
    (hl : bodyText l = z ++ valueEnd ++ Z) : valueEnd ++ [91] <:+: s' := by
  obtain ⟨z', rfl⟩ := bodyText_head hl
  refine ⟨s, z', ?_⟩
  rw [hs]
  simp only [List.append_assoc, List.cons_append, List.nil_append]

/-- Values that do not contain the end of a value are determined by the text. -/
theorem plain_value {v v' : FlatValue} (hv : v.Plain) (hv' : v'.Plain)
    (h : v.text ++ [44, 10] ++ bodyText l = v'.text ++ [44, 10] ++ bodyText l') :
    v = v' ∧ bodyText l = bodyText l' := by
  cases v with
  | boolean b =>
    cases v' with
    | boolean b' =>
      -- the texts differ in their first letter, and each stands for one `int`
      have hcases : b = b' := by
        rcases hv with rfl | rfl <;> rcases hv' with rfl | rfl <;>
          first | rfl | exact absurd (List.cons.inj h).1 (by decide)
      rw [hcases] at h ⊢
      exact ⟨rfl, List.append_cancel_left h⟩
    | string s' =>
      rcases hv with rfl | rfl <;> exact absurd (List.cons.inj h).1 (by decide)
  | string s =>
    cases v' with
    | boolean b' =>
      rcases hv' with rfl | rfl <;> exact absurd (List.cons.inj h).1 (by decide)
    | string s' =>
      have hcut : s ++ valueEnd ++ bodyText l = s' ++ valueEnd ++ bodyText l' := by
        have h : 34 :: (s ++ [34] ++ [44, 10] ++ bodyText l)
            = 34 :: (s' ++ [34] ++ [44, 10] ++ bodyText l') := h
        have h := (List.cons.inj h).2
        simpa only [valueEnd, List.append_assoc, List.cons_append, List.nil_append] using h
      rcases valueEnd_marker.split hcut with ⟨rfl, hl⟩ | ⟨z, hz, hl⟩ | ⟨z, hz, hl⟩
      · exact ⟨rfl, hl⟩
      · exact absurd (valueEnd_within hz hl) hv'
      · exact absurd (valueEnd_within hz hl) hv

/-- Plain entries are determined by their text. -/
theorem plain_of_bodyText (hl : ∀ e ∈ l, e.Plain) (hl' : ∀ e ∈ l', e.Plain)
    (h : bodyText l = bodyText l') : l = l' := by
  induction l generalizing l' with
  | nil =>
    have hlen := length_le_bodyText l'
    rw [← h] at hlen
    exact (List.length_eq_zero_iff.mp (Nat.le_zero.mp hlen)).symm
  | cons e l ih =>
    cases l' with
    | nil =>
      have hlen := length_le_bodyText (e :: l)
      rw [h] at hlen
      exact absurd hlen (Nat.not_succ_le_zero _)
    | cons e' l' =>
      have he := hl e (by simp)
      have he' := hl' e' (by simp)
      have hcut : e.key ++ keyEnd ++ (e.value.text ++ [44, 10] ++ bodyText l)
          = e'.key ++ keyEnd ++ (e'.value.text ++ [44, 10] ++ bodyText l') := by
        rw [bodyText_cons, bodyText_cons] at h
        unfold FlatEntry.text at h
        simp only [List.append_assoc, List.append_cancel_left_eq] at h
        simpa only [List.append_assoc] using h
      -- the keys, then the values, then the rest
      obtain ⟨hkey, hrest⟩ := keyEnd_marker.unique he.1 he'.1 hcut
      obtain ⟨hvalue, hrest⟩ := plain_value he.2 he'.2 hrest
      have hee : e = e' := by
        cases e
        cases e'
        rw [FlatEntry.mk.injEq]
        exact ⟨hkey, hvalue⟩
      rw [hee, ih (fun x hx => hl x (by simp [hx])) (fun x hx => hl' x (by simp [hx])) hrest]

/-! ## §3. Two tables. -/

/-- A flat table that setter calls with short keys reached: it enumerates `l`,
and its text fits the buffers of the serializer. -/
structure World.Flat (w : World) (t : Addr) (l : List FlatEntry) : Prop where
  reached : ∃ (w₀ w₁ : World) (calls : List SetCall) (rs : List Int), w₀.Tidy
    ∧ w₀.newTable = some (t, w₁) ∧ (∀ c ∈ calls, c.key.Short) ∧ w₁.setAll t calls = some (rs, w)
  entries : w.Enumerates t l
  printable : ∀ e ∈ l, e.Printable
  room : (flatText l).length < bufSize

/-- `serialize` of a flat table. -/
theorem World.Flat.serialize {w : World} {t : Addr} (h : w.Flat t l) (tmp : Value)
    {out : SerializeBuff} (hout : out.buff.length < bufSize) :
    ∃ out', w.serialize t tmp out = some (w, out') ∧ out'.text = flatText l := by
  obtain ⟨w₀, w₁, calls, rs, hw, hnew, hk, hx⟩ := h.reached
  obtain ⟨tb₀, h₀⟩ := World.Sound.newTable hw hnew
  obtain ⟨tb, m, hs, hnamed⟩ := h₀.setAll_named
    (by intro n hn; exact absurd hn (by simp [LMap.new_entries])) hk hx
  exact hs.serialize_flat hnamed h.entries h.printable h.room tmp hout

/-- The length of the key, and the `int` of a boolean or the length of a
string. -/
def FlatEntry.shape (e : FlatEntry) : Nat × (Int32 ⊕ Nat) :=
  (e.key.length, match e.value with
    | .boolean b => .inl b
    | .string s => .inr s.length)

/-- The text of a value has a length that its shape tells. -/
theorem FlatEntry.length_text_of_shape {e e' : FlatEntry} (h : e.shape = e'.shape) :
    e.key.length = e'.key.length ∧ e.value.text.length = e'.value.text.length := by
  obtain ⟨k, v⟩ := e
  obtain ⟨k', v'⟩ := e'
  obtain ⟨hk, hv⟩ := Prod.mk.inj h
  refine ⟨hk, ?_⟩
  cases v with
  | boolean b =>
    cases v' with
    | boolean b' => rw [show b = b' from Sum.inl.inj hv]
    | string s' => exact absurd hv (by simp)
  | string s =>
    cases v' with
    | boolean b' => exact absurd hv (by simp)
    | string s' =>
      have hs : s.length = s'.length := Sum.inr.inj hv
      show (34 :: s ++ [34]).length = (34 :: s' ++ [34]).length
      simp only [List.length_append, List.length_cons, hs]

theorem FlatEntry.eq_of_shape {e e' : FlatEntry} (h : e.shape = e'.shape) (hk : e.key = e'.key)
    (hv : e.value.text = e'.value.text) : e = e' := by
  obtain ⟨k, v⟩ := e
  obtain ⟨k', v'⟩ := e'
  have hk : k = k' := hk
  obtain ⟨-, hvalue⟩ := Prod.mk.inj h
  rw [FlatEntry.mk.injEq]
  refine ⟨hk, ?_⟩
  cases v with
  | boolean b =>
    cases v' with
    | boolean b' => rw [show b = b' from Sum.inl.inj hvalue]
    | string s' => exact absurd hvalue (by simp)
  | string s =>
    cases v' with
    | boolean b' => exact absurd hvalue (by simp)
    | string s' => rw [FlatValue.text_string_inj hv]

/-- Entries of one shape are determined by their text. -/
theorem eq_of_shapes (h : bodyText l = bodyText l')
    (hs : l.map FlatEntry.shape = l'.map FlatEntry.shape) : l = l' := by
  induction l generalizing l' with
  | nil => exact (List.map_eq_nil_iff.mp hs.symm).symm
  | cons e l ih =>
    cases l' with
    | nil => exact absurd hs (by simp)
    | cons e' l' =>
      rw [List.map_cons, List.map_cons, List.cons.injEq] at hs
      obtain ⟨hklen, hvlen⟩ := FlatEntry.length_text_of_shape hs.1
      rw [bodyText_cons, bodyText_cons] at h
      -- the pieces of the two texts have the same lengths, one after the other
      have htext : e.text.length = e'.text.length := by
        unfold FlatEntry.text
        simp only [List.length_append, hklen, hvlen]
      obtain ⟨hentry, hrest⟩ := List.append_inj h htext
      unfold FlatEntry.text at hentry
      have hentry := List.append_cancel_right hentry
      obtain ⟨hkey, hvalue⟩ := List.append_inj hentry
        (by simp only [List.length_append, hklen])
      have hkey := List.append_cancel_left (List.append_cancel_right hkey)
      rw [FlatEntry.eq_of_shape hs.1 hkey hvalue, ih hrest hs.2]

/-- The bytes of one list can be read as the other, with another number of
entries, another length of a key or of a string, or another boolean. -/
def Mistakable (l l' : List FlatEntry) : Prop :=
  Rereads l l' ∧ l.map FlatEntry.shape ≠ l'.map FlatEntry.shape

/-- The text identifies two flat tables exactly when they cannot be mistaken
for each other, which plain entries cannot. -/
theorem serialize_identifies_iff {w w' : World} {t t' : Addr} (h : w.Flat t l) (h' : w'.Flat t' l')
    (tmp tmp' : Value) (out out' : SerializeBuff) (hout : out.buff.length < bufSize)
    (hout' : out'.buff.length < bufSize) :
    ∃ x x', w.serialize t tmp out = some (w, x) ∧ w'.serialize t' tmp' out' = some (w', x')
      ∧ ((x.text = x'.text → l = l') ↔ ¬ Mistakable l l')
      ∧ ((∀ e ∈ l, e.Plain) → (∀ e ∈ l', e.Plain) → ¬ Mistakable l l') := by
  obtain ⟨x, hx, htext⟩ := h.serialize tmp hout
  obtain ⟨x', hx', htext'⟩ := h'.serialize tmp' hout'
  refine ⟨x, x', hx, hx', ?_, ?_⟩
  · rw [htext, htext', flatText_eq_iff]
    constructor
    · rintro himp ⟨hread, hshape⟩
      exact hshape (by rw [himp hread])
    · intro hmis hread
      by_contra hne
      exact hmis ⟨hread, fun hs => hne (eq_of_shapes hread.bodyText_eq hs)⟩
  · rintro hl hl' ⟨hread, hshape⟩
    exact hshape (by rw [plain_of_bodyText hl hl' hread.bodyText_eq])

/-- The return codes of calls on a fresh table, and the entries it enumerates
after them. -/
def flatRun (calls : List SetCall) : Option (List Int × List FlatEntry) := do
  let (t, w) ← World.empty.newTable
  let (rs, w) ← w.setAll t calls
  let (size, w) ← w.size t
  let (keys, _) ← w.keys t size
  let l ← Store.flatEntries (lastSet calls) keys
  return (rs, l)

/-- The table that successful calls with flat values build is flat. -/
theorem flat_of_run {calls : List SetCall} (hk : ∀ c ∈ calls, c.key.Short) {rs : List Int}
    (hrun : flatRun calls = some (rs, l)) (hzero : ∀ r ∈ rs, r = 0) (he : ∀ e ∈ l, e.Printable)
    (hroom : (flatText l).length < bufSize) :
    ∃ (t : Addr) (w₀ w : World), World.empty.newTable = some (t, w₀)
      ∧ w₀.setAll t calls = some (rs, w) ∧ w.Flat t l := by
  unfold flatRun at hrun
  obtain ⟨⟨t, w₀⟩, hnew, hrun⟩ := Option.bind_eq_some_iff.mp hrun
  obtain ⟨⟨rs', w⟩, hx, hrun⟩ := Option.bind_eq_some_iff.mp hrun
  obtain ⟨⟨size, w₁⟩, hsize, hrun⟩ := Option.bind_eq_some_iff.mp hrun
  obtain ⟨⟨keys, w₂⟩, hkeys, hrun⟩ := Option.bind_eq_some_iff.mp hrun
  obtain ⟨l', hl, hrun⟩ := Option.bind_eq_some_iff.mp hrun
  cases hrun
  -- the store of the calls is what the table represents
  obtain ⟨tb₀, hrep₀⟩ := World.Rep.newTable hnew
  obtain ⟨tb, m, hrep⟩ := hrep₀.of_setAll_zero calls (fun c hc => (hk c hc).fits) hx hzero
  obtain ⟨-, rfl, -⟩ := hrep.toOwns.of_size hsize
  obtain ⟨-, rfl⟩ := hrep.toOwns.of_keys hrep.inv.toWf hkeys
  exact ⟨t, w₀, w₂, hnew, hx, ⟨World.empty, w₀, calls, rs, World.empty_tidy, hnew, hk, hx⟩,
    hrep.enumerates hsize hkeys hl, he, hroom⟩

/-- The keys `a` and `b` with the values `1` and `2`. -/
def twoCalls : List SetCall := [⟨.str [97], .string [49], .blank⟩, ⟨.str [98], .string [50], .blank⟩]

/-- The key `a` with the value `1",\n["b"] = "2`. -/
def runOnCalls : List SetCall :=
  [⟨.str [97], .string [49, 34, 44, 10, 91, 34, 98, 34, 93, 32, 61, 32, 34, 50], .blank⟩]

theorem flatRun_two :
    flatRun twoCalls = some ([0, 0], [⟨[97], .string [49]⟩, ⟨[98], .string [50]⟩]) := by
  decide +kernel

theorem flatRun_runOn : flatRun runOnCalls
    = some ([0], [⟨[97], .string [49, 34, 44, 10, 91, 34, 98, 34, 93, 32, 61, 32, 34, 50]⟩]) := by
  decide +kernel

/-- The key `a` with the value `1`. -/
def oneCall : List SetCall := [⟨.str [97], .string [49], .blank⟩]

theorem flatRun_one : flatRun oneCall = some ([0], [⟨[97], .string [49]⟩]) := by decide +kernel

/-- Two tables with plain entries, the second one written over the text of an
empty one. -/
theorem serialize_identifies_iff_plain :
    ∃ (t t' : Addr) (w w' : World) (x x' : SerializeBuff),
      w.serialize t .blank .blank = some (w, x) ∧ w'.serialize t' .blank ⟨[123, 125], 2⟩ = some (w', x')
      ∧ ¬ Mistakable [⟨[97], .string [49]⟩] [⟨[97], .string [49]⟩, ⟨[98], .string [50]⟩]
      ∧ (x.text = x'.text → ([⟨[97], .string [49]⟩] : List FlatEntry)
          = [⟨[97], .string [49]⟩, ⟨[98], .string [50]⟩]) := by
  obtain ⟨t, w₀, w, -, -, h⟩ := flat_of_run (by decide) flatRun_one (by decide) (by decide)
    (by decide)
  obtain ⟨t', w₀', w', -, -, h'⟩ := flat_of_run (by decide) flatRun_two (by decide) (by decide)
    (by decide)
  obtain ⟨x, x', hx, hx', hiff, hplain⟩ :=
    serialize_identifies_iff h h' .blank .blank .blank ⟨[123, 125], 2⟩ (by decide) (by decide)
  have hmis := hplain (by decide) (by decide)
  exact ⟨t, t', w, w', x, x', hx, hx', hmis, hiff.mpr hmis⟩

/-- A string value with a quote in it makes two tables have one text. -/
theorem serialize_text_twice :
    ∃ (t t' : Addr) (w w' : World) (l l' : List FlatEntry) (x x' : SerializeBuff),
      w.Flat t l ∧ w'.Flat t' l' ∧ w.serialize t .blank .blank = some (w, x)
      ∧ w'.serialize t' .blank .blank = some (w', x') ∧ x.text = x'.text ∧ l ≠ l' := by
  obtain ⟨t, w₀, w, -, -, h⟩ := flat_of_run (by decide) flatRun_two (by decide) (by decide)
    (by decide)
  obtain ⟨t', w₀', w', -, -, h'⟩ := flat_of_run (by decide) flatRun_runOn (by decide) (by decide)
    (by decide)
  have hblank : SerializeBuff.blank.buff.length < bufSize := by decide
  obtain ⟨x, hx, htext⟩ := h.serialize .blank hblank
  obtain ⟨x', hx', htext'⟩ := h'.serialize .blank hblank
  refine ⟨t, t', w, w', _, _, x, x', h, h', hx, hx', ?_, by decide⟩
  rw [htext, htext']
  decide

end LightTable
