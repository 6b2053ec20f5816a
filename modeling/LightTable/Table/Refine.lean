/-
  LightTable.Table.Refine
  ───────────────────────
  A table refines a finite map.

  `World.Rep` relates a table in memory to a `Store`: the map satisfies the
  hash table invariant, its view holds the stored values, and no two keys
  share an lstring or a slot (so swapping the slot of one string is seen under
  its own key only).  Each setter simulates `Store.set`, and the run rule of
  `Lib.Run` lifts that to call sequences.
-/
import LightTable.Table.Store

namespace LightTable

open ChainedHash

variable {w : World} {t : Addr} {s : Store} {tb : Table} {m : LMap}

/-! ## §1. The relation. -/

/-- The table at `t` represents the store `s`. -/
structure World.Rep (w : World) (t : Addr) (s : Store) (tb : Table) (m : LMap) : Prop
    extends w.Owns t tb m where
  inv : m.Inv
  present : ∀ key a, s key = some a → ∃ tv, m.view key = some tv ∧ w.Stored a tv
  absent : ∀ key, s key = none → m.view key = none
  alone : ∀ key key' p p' slot slot', m.view key = some (.string, p) →
    m.view key' = some (.string, p') → w.lstrings p = some ⟨slot⟩ →
    w.lstrings p' = some ⟨slot'⟩ → p = p' ∨ slot = slot' → key = key'
  old : ∀ key p slot, m.view key = some (.string, p) → w.lstrings p = some ⟨slot⟩ →
    p < w.brk ∧ slot < w.brk

/-- The type found under a key is the type of its value. -/
theorem World.Rep.typeAt (h : w.Rep t s tb m) (key : Key) :
    m.typeAt key = ((s key).map Arg.type).getD .nil := by
  unfold LMap.typeAt
  cases hs : s key with
  | none => rw [h.absent key hs]; rfl
  | some a =>
    obtain ⟨tv, hv, hst⟩ := h.present key a hs
    rw [hv]
    exact hst.type

theorem Arg.type_ne_nil (a : Arg) : a.type ≠ .nil := by
  cases a <;> exact fun h => nomatch h

/-- `LT_NIL` is found exactly under the absent keys. -/
theorem World.Rep.typeAt_eq_nil (h : w.Rep t s tb m) (key : Key) :
    m.typeAt key = .nil ↔ s key = none := by
  rw [h.typeAt]
  cases s key with
  | none => simp
  | some a => simpa using a.type_ne_nil

/-- The view of a stored value is the value's type and a word. -/
theorem World.Rep.view_some (h : w.Rep t s tb m) {key : Key} {a : Arg} (hs : s key = some a) :
    ∃ v, m.view key = some (a.type, v) ∧ w.Stored a (a.type, v) := by
  obtain ⟨⟨ty, v⟩, hv, hst⟩ := h.present key a hs
  have hty : ty = a.type := hst.type
  subst hty
  exact ⟨v, hv, hst⟩

/-- What a node of a table stands for. -/
theorem World.Rep.of_node (h : w.Rep t s tb m) {n : Node} (hn : n ∈ m.entries) :
    ∃ key a, n.storedKey = some key ∧ s key = some a ∧ n.v.type = a.type
      ∧ m.view key = some (n.v.type, n.v.v) := by
  obtain ⟨key, hkey, hfind⟩ := h.inv.find_node hn
  have hview : m.view key = some (n.v.type, n.v.v) := by
    unfold LMap.view
    rw [hfind]
    rfl
  cases hs : s key with
  | none =>
    rw [h.absent key hs] at hview
    exact absurd hview (by simp)
  | some a =>
    obtain ⟨v, hv, -⟩ := h.view_some hs
    have hty : n.v.type = a.type := by
      rw [hview] at hv
      exact congrArg Prod.fst (Option.some.inj hv)
    exact ⟨key, a, hkey, hs, hty, hview⟩

/-- A view that reads `LT_STRING` is a string of the store. -/
theorem World.Rep.of_view_string (h : w.Rep t s tb m) {key : Key} {p : Word}
    (hv : m.view key = some (.string, p)) :
    ∃ str slot, s key = some (.string str) ∧ w.lstrings p = some ⟨slot⟩
      ∧ w.slots slot = some (LightTable.newString str) := by
  cases hs : s key with
  | none => rw [h.absent key hs] at hv; exact absurd hv (by simp)
  | some a =>
    obtain ⟨tv, hv', hst⟩ := h.present key a hs
    rw [hv] at hv'
    cases hv'
    have hty : LType.string = a.type := hst.type
    cases a with
    | string str =>
      obtain ⟨-, slot, hls, hsl⟩ := hst
      exact ⟨str, slot, rfl, hls, hsl⟩
    | number n => exact nomatch hty
    | boolean b => exact nomatch hty
    | ud u => exact nomatch hty

/-! ## §2. Reading. -/

/-- Every reader shows the store. -/
theorem World.Rep.readsAs (h : w.Rep t s tb m) (key : Key) : w.ReadsAs t key (s key) := by
  have howns := h.toOwns
  have hwf := h.inv.toWf
  cases hs : s key with
  | none =>
    intro tmp
    refine ⟨tmp.v, ?_⟩
    rw [howns.getType hwf, h.absent key hs]
    rfl
  | some a =>
    intro tmp
    obtain ⟨v, hv, hst⟩ := h.view_some hs
    refine ⟨⟨v, by rw [howns.getType hwf, hv]; rfl⟩, ?_⟩
    cases a with
    | number n =>
      have hvn : v = n := congrArg Prod.snd hst
      subst hvn
      exact howns.getPlain hwf hv tmp
    | ud u =>
      have hvu : v = u := congrArg Prod.snd hst
      subst hvu
      exact howns.getPlain hwf hv tmp
    | boolean b =>
      have hvb : Word.b v = b := hst.2
      have hv : m.view key = some (.boolean, v) := hv
      show w.getBoolean t key tmp = _
      unfold World.getBoolean
      rw [howns.getPlain hwf hv tmp, ← hvb]
      rfl
    | string str =>
      obtain ⟨-, slot, hls, hsl⟩ := hst
      -- the slot is pinned for the read and let go again
      obtain ⟨w₁, hgrab, -, hrel⟩ := World.grab_release hls hsl rfl
      obtain ⟨n, hn, hnv⟩ := Option.map_eq_some_iff.mp hv
      simp only [Prod.mk.injEq] at hnv
      have hty : n.v.type = LType.string := hnv.1
      refine ⟨.buf slot, ?_, ?_⟩
      · unfold World.getString
        rw [howns.searchTable hwf, LMap.result_found hn]
        simp [hty, hnv.2, hgrab, hrel]
      · show (w.slots slot).map StringSlot.buf = _
        rw [hsl]
        rfl

/-! ## §3. A fresh table. -/

/-- The map of a fresh table. -/
theorem LMap.new_inv : (LMap.new 29).Inv where
  toWf :=
    { pos := by decide
      lt := by decide
      length := by decide
      size := ⟨0, by decide⟩
      node := by simp [LMap.new_entries]
      vref := by simp [LMap.new_entries]
      type := by simp [LMap.new_entries] }
  placed := placed_replicate _ _ _
  nodup := by simp [LMap.new_entries]

theorem LMap.new_view (key : Key) : (LMap.new 29).view key = none := by
  unfold LMap.view
  rw [Option.map_eq_none_iff, Option.eq_none_iff_forall_ne_some]
  intro n hn
  have := (LMap.find_mem hn).1
  exact absurd this (by simp [LMap.new_entries])

/-- `new table` gives a table with the empty map of 29 buckets. -/
theorem World.newTable_spec (w : World) :
    ∃ w₀ tb, w.newTable = some (w.brk, w₀) ∧ w₀.Owns w.brk tb (LMap.new 29) ∧ tb.ref = 1
      ∧ w₀.brk = w.brk + 2 ∧ w₀.lstrings = w.lstrings ∧ w₀.slots = w.slots
      ∧ ∀ t, t ≠ w.brk → w₀.tables t = w.tables t := by
  set tb : Table := Table.putMap { ref := 1, map := w.brk + 1, maps := fun _ => none }
    (w.brk + 1) (LMap.new 29) with htb
  refine ⟨{ w with brk := w.brk + 2 }.putTable w.brk tb, tb, ?_,
    ⟨World.putTable_tables_self _ _ _, Table.putMap_self _ _ _, rfl, Nat.lt_succ_self _⟩,
    rfl, rfl, rfl, rfl, fun t ht => World.putTable_tables_ne _ ht _⟩
  unfold World.newTable
  rw [nextPrime_default]
  rfl

/-- What a new table changes. -/
theorem World.of_newTable {w₀ : World} (h : w.newTable = some (t, w₀)) :
    t = w.brk ∧ w₀.brk = w.brk + 2 ∧ w₀.lstrings = w.lstrings ∧ w₀.slots = w.slots
      ∧ w₀.destroyed = w.destroyed ∧ (∀ t', t' ≠ t → w₀.tables t' = w.tables t')
      ∧ ∃ tb, w₀.Owns t tb (LMap.new 29) ∧ tb.ref = 1 := by
  obtain ⟨w₁, tb, hnew, howns, href, hbrk, hls, hsl, hother⟩ := w.newTable_spec
  have hdestroyed : w₁.destroyed = w.destroyed := by
    unfold World.newTable at hnew
    rw [nextPrime_default] at hnew
    cases hnew
    rfl
  rw [hnew, Option.some.injEq, Prod.mk.injEq] at h
  obtain ⟨rfl, rfl⟩ := h
  exact ⟨rfl, hbrk, hls, hsl, hdestroyed, hother, tb, howns, href⟩

theorem World.Rep.newTable {w₀ : World} (h : w.newTable = some (t, w₀)) :
    ∃ tb, w₀.Rep t Store.empty tb (LMap.new 29) := by
  obtain ⟨-, -, -, -, -, -, tb, howns, -⟩ := World.of_newTable h
  refine ⟨tb, howns, LMap.new_inv, ?_, fun key _ => LMap.new_view key, ?_, ?_⟩
  · intro key a ha
    exact absurd ha (by simp [Store.empty])
  · intro key key' p p' slot slot' hv
    exact absurd hv (by simp [LMap.new_view])
  · intro key p slot hv
    exact absurd hv (by simp [LMap.new_view])

/-! ## §4. Inserting. -/

/-- Strings may be allocated beside a table: it represents the same store. -/
theorem World.Rep.congr (h : w.Rep t s tb m) {w' : World} (ht : w'.tables = w.tables)
    (hb : w.brk ≤ w'.brk) (hls : ∀ a, a < w.brk → w'.lstrings a = w.lstrings a)
    (hsl : ∀ a, a < w.brk → w'.slots a = w.slots a) : w'.Rep t s tb m := by
  -- the lstrings and slots of stored strings are old
  have hold : ∀ key p slot, m.view key = some (.string, p) →
      w'.lstrings p = some ⟨slot⟩ → w.lstrings p = some ⟨slot⟩ := by
    intro key p slot hv hp
    obtain ⟨str, slot₀, -, hls₀, -⟩ := h.of_view_string hv
    rwa [hls p (h.old key p slot₀ hv hls₀).1] at hp
  refine ⟨h.toOwns.congr ht hb, h.inv, ?_, h.absent, ?_, ?_⟩
  · intro key a ha
    obtain ⟨v, hv, hst⟩ := h.view_some ha
    refine ⟨_, hv, hst.congr ?_⟩
    intro slot hty hp
    have hlt := h.old key v slot (by rw [hv]; exact congrArg (fun x => some (x, v)) hty) hp
    exact ⟨(hls v hlt.1).trans hp, hsl slot hlt.2⟩
  · intro key key' p p' slot slot' hv hv' hp hp' hor
    exact h.alone key key' p p' slot slot' hv hv' (hold key p slot hv hp)
      (hold key' p' slot' hv' hp') hor
  · intro key p slot hv hp
    have hlt := h.old key p slot hv (hold key p slot hv hp)
    exact ⟨Nat.lt_of_lt_of_le hlt.1 hb, Nat.lt_of_lt_of_le hlt.2 hb⟩

/-- A string value that no key of the table shares yet. -/
structure World.FreshString (w : World) (m : LMap) (key : Key) (p : Word) : Prop where
  alone : ∀ key' p' slot slot', key' ≠ key → m.view key' = some (.string, p') →
    w.lstrings p = some ⟨slot⟩ → w.lstrings p' = some ⟨slot'⟩ → p ≠ p' ∧ slot ≠ slot'
  old : ∀ slot, w.lstrings p = some ⟨slot⟩ → p < w.brk ∧ slot < w.brk

/-- `_insert_table` of a value of the right type puts it under its key. -/
theorem World.Rep.insertTable (h : w.Rep t s tb m) {key : Key} (hk : key.Fits) {a : Arg} {v : Value}
    (hty : v.type = a.type) (hst : w.Stored a (a.type, v.v))
    (hacc : ∀ b, s key = some b → b.type = a.type)
    (hstr : a.type = .string → w.FreshString m key v.v)
    (hg : maxHashDepth ≤ m.depth key → m.CanGrow) :
    ∃ w' tb' m', w.insertTable t key v = some (m.typeAt key, w')
      ∧ w'.Rep t (s.put key a) tb' m' ∧ m'.size = grownSize m.size (m.depth key)
      ∧ World.Frame t w w' := by
  obtain ⟨w', tb', m', heq, howns', hinv', hview, hsize, hframe, -⟩ :=
    h.toOwns.insertTable_spec h.inv hk (v := v) (by rw [hty]; exact a.type_ne_nil) hg
  have hwritten : written (m.view key) v.type v.v = (a.type, v.v) := by
    cases hs : s key with
    | none => rw [h.absent key hs, ← hty]; rfl
    | some b =>
      obtain ⟨u, hv, -⟩ := h.view_some hs
      rw [hv, ← hacc b hs]
      rfl
  rw [hwritten] at hview
  have hself : m'.view key = some (a.type, v.v) := by rw [hview]; exact Function.update_self ..
  have hother : ∀ key', key' ≠ key → m'.view key' = m.view key' := by
    intro key' hne
    rw [hview]
    exact Function.update_of_ne hne ..
  have hst' : ∀ b tv, w.Stored b tv → w'.Stored b tv := by
    intro b tv hb
    exact hb.congr (fun slot _ hp => ⟨by rw [hframe.lstrings]; exact hp, by rw [hframe.slots]⟩)
  refine ⟨w', tb', m', heq, ⟨howns', hinv', ?_, ?_, ?_, ?_⟩, hsize, hframe⟩
  · intro key' b hb
    by_cases hkk : key' = key
    · subst hkk
      rw [Store.put_self] at hb
      cases hb
      exact ⟨_, hself, hst' _ _ hst⟩
    · rw [Store.put_ne s hkk] at hb
      obtain ⟨tv, hv, hbst⟩ := h.present key' b hb
      exact ⟨tv, (hother key' hkk).trans hv, hst' _ _ hbst⟩
  · intro key' hb
    by_cases hkk : key' = key
    · subst hkk
      rw [Store.put_self] at hb
      exact absurd hb (by simp)
    · rw [Store.put_ne s hkk] at hb
      exact (hother key' hkk).trans (h.absent key' hb)
  · intro k₁ k₂ p₁ p₂ slot₁ slot₂ hv₁ hv₂ hp₁ hp₂ hor
    rw [hframe.lstrings] at hp₁ hp₂
    -- one key is the new one, or both are old
    by_cases h₁ : k₁ = key <;> by_cases h₂ : k₂ = key
    · exact h₁.trans h₂.symm
    · subst h₁
      rw [hself] at hv₁
      rw [hother k₂ h₂] at hv₂
      simp only [Option.some.injEq, Prod.mk.injEq] at hv₁
      obtain ⟨hstring, rfl⟩ := hv₁
      have hne := (hstr hstring).alone k₂ p₂ slot₁ slot₂ h₂ hv₂ hp₁ hp₂
      exact absurd hor (by simp [hne.1, hne.2])
    · subst h₂
      rw [hself] at hv₂
      rw [hother k₁ h₁] at hv₁
      simp only [Option.some.injEq, Prod.mk.injEq] at hv₂
      obtain ⟨hstring, rfl⟩ := hv₂
      have hne := (hstr hstring).alone k₁ p₁ slot₂ slot₁ h₁ hv₁ hp₂ hp₁
      exact absurd hor (by simp [hne.1.symm, hne.2.symm])
    · rw [hother k₁ h₁] at hv₁
      rw [hother k₂ h₂] at hv₂
      exact h.alone k₁ k₂ p₁ p₂ slot₁ slot₂ hv₁ hv₂ hp₁ hp₂ hor
  · intro key' p slot hv hp
    rw [hframe.lstrings] at hp
    have hlt : p < w.brk ∧ slot < w.brk := by
      by_cases hkk : key' = key
      · subst hkk
        rw [hself] at hv
        simp only [Option.some.injEq, Prod.mk.injEq] at hv
        obtain ⟨hstring, rfl⟩ := hv
        exact (hstr hstring).old slot hp
      · rw [hother key' hkk] at hv
        exact h.old key' p slot hv hp
    exact ⟨Nat.lt_of_lt_of_le hlt.1 hframe.brk, Nat.lt_of_lt_of_le hlt.2 hframe.brk⟩

/-! ## §5. The setters. -/

theorem Arg.eq_string {a : Arg} (ha : a.type = .string) : ∃ str, a = .string str := by
  cases a with
  | string str => exact ⟨str, rfl⟩
  | number n => exact nomatch ha
  | boolean b => exact nomatch ha
  | ud u => exact nomatch ha

/-- The union a setter other than `set_string` writes. -/
def Arg.word (tmp : Value) : Arg → Word
  | .number n => n
  | .boolean b => Word.setB tmp.v b
  | .ud u => u
  | .string _ => 0

theorem Arg.stored_word {a : Arg} (ha : a.type ≠ .string) (w : World) (tmp : Value) :
    w.Stored a (a.type, a.word tmp) := by
  cases a with
  | number n => rfl
  | boolean b => exact ⟨rfl, Word.b_setB tmp.v b⟩
  | ud u => rfl
  | string str => exact absurd rfl ha

theorem World.set_of_plain {c : SetCall} (hc : c.arg.type ≠ .string) (w : World) (t : Addr) :
    w.set t c = w.setPlain t c.key c.tmp c.arg.type (c.arg.word c.tmp) := by
  unfold World.set
  cases harg : c.arg with
  | number n => rfl
  | boolean b => rfl
  | ud u => rfl
  | string str => rw [harg] at hc; exact absurd rfl hc

theorem World.set_of_string {c : SetCall} {str : Bytes} (hc : c.arg = .string str) (w : World)
    (t : Addr) : w.set t c = w.setString t c.key c.tmp str := by
  unfold World.set
  rw [hc]

/-- `set_string` on a key that holds a string swaps its slot. -/
theorem World.Owns.set_swaps (h : w.Owns t tb m) (hm : m.Wf) {c : SetCall} {str : Bytes}
    (hc : c.arg = .string str) {n : Node} (hn : m.find c.key = some n) (hty : n.v.type = .string) :
    w.set t c = (w.updateString n.v.v str).map (fun w' => (0, w')) := by
  rw [World.set_of_string hc]
  unfold World.setString
  rw [h.searchTable hm, LMap.result_found hn]
  simp only [Option.bind_eq_bind, Option.bind_some, if_pos hty]
  cases w.updateString n.v.v str <;> rfl

/-- `set_string` on a key that holds another type does nothing. -/
theorem World.Owns.set_refuses (h : w.Owns t tb m) (hm : m.Wf) {c : SetCall} {str : Bytes}
    (hc : c.arg = .string str) {n : Node} (hn : m.find c.key = some n) (hty : n.v.type ≠ .string) :
    w.set t c = some (1, w) := by
  rw [World.set_of_string hc]
  unfold World.setString
  rw [h.searchTable hm, LMap.result_found hn]
  simp only [Option.bind_eq_bind, Option.bind_some, if_neg hty,
    if_pos (hm.type n (LMap.find_mem hn).1)]
  rfl

/-- `set_string` on an absent key inserts. -/
theorem World.Owns.set_absent (h : w.Owns t tb m) (hm : m.Wf) {c : SetCall} {str : Bytes}
    (hc : c.arg = .string str) (hn : m.find c.key = none) :
    w.set t c = w.insertString t c.key c.tmp str := by
  rw [World.set_of_string hc]
  unfold World.setString
  rw [h.searchTable hm, LMap.result_absent hn]
  rfl

/-- What a call does when its key is absent or of its type: it gives 0 and puts
the value. -/
def World.SetPuts (w : World) (t : Addr) (s : Store) (m : LMap) (c : SetCall) : Prop :=
  ∃ w' tb' m', w.set t c = some (0, w') ∧ w'.Rep t (s.put c.key c.arg) tb' m'
    ∧ m'.size = if c.arg.type = .string ∧ m.typeAt c.key ≠ .nil then m.size
                else grownSize m.size (m.depth c.key)

/-- `set_number`, `set_boolean` and `set_ud`. -/
theorem World.Rep.setPlain (h : w.Rep t s tb m) {c : SetCall} (hc : c.arg.type ≠ .string)
    (hk : c.key.Fits) (hacc : s.Accepts c) (hg : maxHashDepth ≤ m.depth c.key → m.CanGrow) :
    w.SetPuts t s m c := by
  obtain ⟨w', tb', m', heq, hrep, hsize, -⟩ :=
    h.insertTable (v := { c.tmp with type := c.arg.type, v := c.arg.word c.tmp }) hk rfl
      (Arg.stored_word hc w c.tmp) hacc (fun hs => absurd hs hc) hg
  refine ⟨w', tb', m', ?_, hrep, ?_⟩
  · have hret : ¬ (m.typeAt c.key ≠ c.arg.type ∧ m.typeAt c.key ≠ .nil) := by
      rw [h.typeAt]
      cases hs : s c.key with
      | none => simp
      | some a => simp [hacc a hs]
    rw [World.set_of_plain hc]
    unfold World.setPlain
    rw [heq]
    simp [hret]
  · rw [if_neg (fun hs => hc hs.1)]
    exact hsize

/-- `set_string` on an absent key: a new lstring is inserted. -/
theorem World.Rep.insertString (h : w.Rep t s tb m) {key : Key} (hk : key.Fits)
    (hs : s key = none) (hg : maxHashDepth ≤ m.depth key → m.CanGrow) (tmp : Value) (str : Bytes) :
    ∃ w' tb' m', w.insertString t key tmp str = some (0, w')
      ∧ w'.Rep t (s.put key (.string str)) tb' m' ∧ m'.size = grownSize m.size (m.depth key) := by
  -- the world with the new lstring and its slot
  set w₁ : World := (({ w with brk := w.brk + 1 } : World).newString str).2.putLString w.brk
    { slot := w.brk + 1 } with hw₁
  have hls : w₁.lstrings w.brk = some ⟨w.brk + 1⟩ := Function.update_self ..
  have hsl : w₁.slots (w.brk + 1) = some (LightTable.newString str) := Function.update_self ..
  have hrep₁ : w₁.Rep t s tb m := by
    refine h.congr rfl (Nat.le_add_right _ 2) ?_ ?_
    · intro a ha
      exact Function.update_of_ne (Nat.ne_of_lt ha) ..
    · intro a ha
      exact Function.update_of_ne (Nat.ne_of_lt (Nat.lt_succ_of_lt ha)) ..
  have hfresh : w₁.FreshString m key w.brk := by
    refine ⟨?_, ?_⟩
    · intro key' p' slot slot' _ hv' hp hp'
      obtain ⟨str', slot₀, -, hls₀, -⟩ := h.of_view_string hv'
      have hlt := h.old key' p' slot₀ hv' hls₀
      rw [hls] at hp
      have hp'' : w₁.lstrings p' = some ⟨slot₀⟩ :=
        (Function.update_of_ne (Nat.ne_of_lt hlt.1) ..).trans hls₀
      rw [hp''] at hp'
      simp only [Option.some.injEq, LString.mk.injEq] at hp hp'
      subst hp hp'
      exact ⟨(Nat.ne_of_lt hlt.1).symm, (Nat.ne_of_lt (Nat.lt_succ_of_lt hlt.2)).symm⟩
    · intro slot hp
      rw [hls] at hp
      simp only [Option.some.injEq, LString.mk.injEq] at hp
      subst hp
      exact ⟨Nat.lt_add_of_pos_right Nat.two_pos, Nat.lt_succ_self _⟩
  obtain ⟨w', tb', m', heq, hrep, hsize, -⟩ :=
    hrep₁.insertTable (v := { tmp with type := .string, v := w.brk }) (a := .string str) hk rfl
      ⟨rfl, w.brk + 1, hls, hsl⟩ (by intro b hb; rw [hs] at hb; exact absurd hb (by simp))
      (fun _ => hfresh) hg
  refine ⟨w', tb', m', ?_, hrep, hsize⟩
  unfold World.insertString
  show ((w₁.insertTable t key { tmp with type := .string, v := w.brk }).bind _) = _
  rw [heq]
  rfl

/-- `_update_string` on the string of a key. -/
theorem World.Rep.updateString (h : w.Rep t s tb m) {key : Key} {p : Word}
    (hv : m.view key = some (.string, p)) (str : Bytes) :
    ∃ w', w.updateString p str = some w' ∧ w'.Rep t (s.put key (.string str)) tb m := by
  obtain ⟨str₀, slot, hs, hls, hsl⟩ := h.of_view_string hv
  have hlt := h.old key p slot hv hls
  obtain ⟨w', heq, hbrk, htables, hls', hsl', -⟩ := World.updateString_spec hls hsl rfl hlt.2 str
  have hle : w.brk ≤ w'.brk := by rw [hbrk]; exact Nat.le_succ _
  have hselfls : w'.lstrings p = some ⟨w.brk⟩ := by rw [hls']; exact Function.update_self ..
  -- the strings of the other keys are where they were
  have hother : ∀ key' p', key' ≠ key → m.view key' = some (.string, p') →
      p' ≠ p ∧ w'.lstrings p' = w.lstrings p' := by
    intro key' p' hne hv'
    obtain ⟨-, slot', -, hp', -⟩ := h.of_view_string hv'
    have hpp : p' ≠ p := fun heq => hne (h.alone key' key p' p slot' slot hv' hv hp' hls (Or.inl heq))
    exact ⟨hpp, by rw [hls']; exact Function.update_of_ne hpp ..⟩
  refine ⟨w', heq, h.toOwns.congr htables hle, h.inv, ?_, ?_, ?_, ?_⟩
  · intro key' a ha
    by_cases hkk : key' = key
    · subst hkk
      rw [Store.put_self] at ha
      cases ha
      refine ⟨_, hv, rfl, w.brk, hselfls, ?_⟩
      rw [hsl', Function.update_of_ne (Nat.ne_of_lt hlt.2).symm]
      exact Function.update_self ..
    · rw [Store.put_ne s hkk] at ha
      obtain ⟨v, hv', hst⟩ := h.view_some ha
      refine ⟨_, hv', hst.congr ?_⟩
      intro slot' hty hp'
      have hvs : m.view key' = some (.string, v) := by
        rw [hv']
        exact congrArg (fun x => some (x, v)) hty
      have hlt' := h.old key' v slot' hvs hp'
      refine ⟨(hother key' v hkk hvs).2.trans hp', ?_⟩
      have hslot : slot' ≠ slot :=
        fun heq => hkk (h.alone key' key v p slot' slot hvs hv hp' hls (Or.inr heq))
      rw [hsl', Function.update_of_ne hslot, Function.update_of_ne (Nat.ne_of_lt hlt'.2)]
  · intro key' ha
    by_cases hkk : key' = key
    · subst hkk
      rw [Store.put_self] at ha
      exact absurd ha (by simp)
    · rw [Store.put_ne s hkk] at ha
      exact h.absent key' ha
  · intro k₁ k₂ p₁ p₂ slot₁ slot₂ hv₁ hv₂ hp₁ hp₂ hor
    by_cases h₁ : k₁ = key <;> by_cases h₂ : k₂ = key
    · exact h₁.trans h₂.symm
    · subst h₁
      rw [hv] at hv₁
      cases hv₁
      obtain ⟨hne, hsame⟩ := hother k₂ p₂ h₂ hv₂
      rw [hselfls] at hp₁
      cases hp₁
      have hlt₂ := h.old k₂ p₂ slot₂ hv₂ (hsame.symm.trans hp₂)
      exact absurd hor (by simp [hne.symm, (Nat.ne_of_lt hlt₂.2).symm])
    · subst h₂
      rw [hv] at hv₂
      cases hv₂
      obtain ⟨hne, hsame⟩ := hother k₁ p₁ h₁ hv₁
      rw [hselfls] at hp₂
      cases hp₂
      have hlt₁ := h.old k₁ p₁ slot₁ hv₁ (hsame.symm.trans hp₁)
      exact absurd hor (by simp [hne, Nat.ne_of_lt hlt₁.2])
    · rw [(hother k₁ p₁ h₁ hv₁).2] at hp₁
      rw [(hother k₂ p₂ h₂ hv₂).2] at hp₂
      exact h.alone k₁ k₂ p₁ p₂ slot₁ slot₂ hv₁ hv₂ hp₁ hp₂ hor
  · intro key' p' slot' hv' hp'
    by_cases hkk : key' = key
    · subst hkk
      rw [hv] at hv'
      cases hv'
      rw [hselfls] at hp'
      cases hp'
      exact ⟨Nat.lt_of_lt_of_le hlt.1 hle, by rw [hbrk]; exact Nat.lt_succ_self _⟩
    · rw [(hother key' p' hkk hv').2] at hp'
      have hlt' := h.old key' p' slot' hv' hp'
      exact ⟨Nat.lt_of_lt_of_le hlt'.1 hle, Nat.lt_of_lt_of_le hlt'.2 hle⟩

/-- `set_string`. -/
theorem World.Rep.setString (h : w.Rep t s tb m) {c : SetCall} {str : Bytes}
    (hc : c.arg = .string str) (hk : c.key.Fits) (hacc : s.Accepts c)
    (hg : m.typeAt c.key = .nil → maxHashDepth ≤ m.depth c.key → m.CanGrow) :
    w.SetPuts t s m c := by
  have hcty : c.arg.type = .string := by rw [hc]; rfl
  cases hs : s c.key with
  | none =>
    -- a new key: the string is inserted
    have hnil : m.typeAt c.key = .nil := (h.typeAt_eq_nil c.key).mpr hs
    have hfind : m.find c.key = none := by
      have := h.absent c.key hs
      unfold LMap.view at this
      exact Option.map_eq_none_iff.mp this
    obtain ⟨w', tb', m', heq, hrep, hsize⟩ := h.insertString hk hs (hg hnil) c.tmp str
    rw [← h.toOwns.set_absent h.inv.toWf hc hfind] at heq
    refine ⟨w', tb', m', heq, by rw [hc]; exact hrep, ?_⟩
    rw [hsize, hnil, if_neg (fun h => h.2 rfl)]
  | some a =>
    obtain ⟨v, hv, -⟩ := h.view_some hs
    -- a key that holds a string: its slot is swapped
    have hty : a.type = .string := by rw [hacc a hs, hcty]
    rw [hty] at hv
    obtain ⟨n, hn, hnv⟩ := Option.map_eq_some_iff.mp hv
    simp only [Prod.mk.injEq] at hnv
    obtain ⟨w', heq, hrep⟩ := h.updateString hv str
    have hset := h.toOwns.set_swaps h.inv.toWf hc hn hnv.1
    rw [hnv.2, heq] at hset
    refine ⟨w', tb, m, hset, by rw [hc]; exact hrep, ?_⟩
    have hne : m.typeAt c.key ≠ .nil := by
      rw [LMap.typeAt_found hn]
      exact h.inv.toWf.type n (LMap.find_mem hn).1
    rw [if_pos ⟨hcty, hne⟩]

/-- A setter call the store accepts puts its value. -/
theorem World.Rep.set (h : w.Rep t s tb m) {c : SetCall} (hk : c.key.Fits) (hacc : s.Accepts c)
    (hg : w.bucketsAsked t c < 2147483648) : w.SetPuts t s m c := by
  unfold World.bucketsAsked at hg
  rw [h.toOwns.current] at hg
  have hgrow : ¬ (c.arg.type = .string ∧ m.typeAt c.key ≠ .nil) →
      maxHashDepth ≤ m.depth c.key → m.CanGrow := by
    intro hins hd
    simp only [if_neg hins, grownSize, if_pos hd] at hg
    exact hg
  by_cases hc : c.arg.type = .string
  · obtain ⟨str, hstr⟩ := Arg.eq_string hc
    exact h.setString hstr hk hacc (fun hnil => hgrow (fun hx => hx.2 hnil))
  · exact h.setPlain hc hk hacc (hgrow (fun hx => hc hx.1))

end LightTable
