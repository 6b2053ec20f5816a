/-
  LightTable.Lua.Index
  ────────────────────
  Which entry of the table each Lua entry point means by an index.

  `_set`, `_ipairsaux`, `_next_map` and `do_convert` take the Lua index as it
  is; `_get` takes one less.  So an integer key never reads back what was
  stored under it, except by coincidence, and a string key does as long as
  lengths fit an `int`.
-/
import LightTable.Lua.Def
import LightTable.Table.Effects
import LightTable.Table.FailedSet

namespace LightTable

open ChainedHash

variable {w : World} {t : Addr} {tb : Table} {m : LMap}

/-! ## §1. What a union reads as in Lua. -/

/-- The value `_get_value` pushes. -/
def World.valueOf (w : World) (ttype : LType) (tv : Word) : Option LuaValue :=
  (w.getValue ttype tv).bind (fun r => match r.1 with
    | .ok v => some v
    | .error _ => none)

/-- What `value_string` hands to its callback, from the slot alone. -/
theorem World.valueString_fst (w : World) (v : Word) :
    (w.valueString v).map Prod.fst
      = (w.lstrings v).bind (fun ls => (w.slots ls.slot).bind (fun sl =>
          if 1 < asInt (sl.ref + 1) then readBytes sl.buf (asSize sl.sz) else none)) := by
  unfold World.valueString World.grabString
  cases hls : w.lstrings v with
  | none => rfl
  | some ls =>
    cases hsl : w.slots ls.slot with
    | none => simp [hsl]
    | some sl =>
      simp only [Option.bind_eq_bind, Option.bind_some, hsl]
      by_cases href : 1 < asInt (sl.ref + 1)
      · rw [if_pos href, if_pos href]
        -- the slot is there, so the release goes through
        have hrel : ∀ w₁ : World, w₁.slots ls.slot = some { sl with ref := asInt (sl.ref + 1) } →
            ∃ w₂, w₁.releaseString ls.slot = some w₂ := by
          intro w₁ h₁
          unfold World.releaseString World.decSlot World.freeSlot
          simp only [h₁, Option.bind_eq_bind, Option.bind_some, World.putSlot_slots_self,
            Option.pure_def]
          split <;> exact ⟨_, rfl⟩
        obtain ⟨w₂, hw₂⟩ := hrel _ (World.putSlot_slots_self w ls.slot _)
        simp only [Option.pure_def, Option.bind_some, World.readSlot, World.putSlot_slots_self,
          Option.bind_eq_bind]
        cases readBytes sl.buf (asSize sl.sz) with
        | none => rfl
        | some bytes =>
          simp only [Option.bind_some]
          rw [hw₂]
          rfl
      · rw [if_neg href, if_neg href]
        rfl

/-- What a string reads as, from its lstring and slot alone. -/
theorem World.valueOf_lstring (w : World) (p : Word) :
    w.valueOf .string p = ((w.lstrings p).bind fun ls => (w.slots ls.slot).bind fun sl =>
      if 1 < asInt (sl.ref + 1) then readBytes sl.buf (asSize sl.sz) else none).map
        LuaValue.string := by
  rw [← World.valueString_fst]
  unfold World.valueOf World.getValue
  cases w.valueString p <;> rfl

/-- What a union reads as depends on the lstrings, and on the bytes, the length
and the raised count of their slots. -/
theorem World.valueOf_of_slots {w' : World} (hls : w'.lstrings = w.lstrings)
    (hsl : ∀ s, (w'.slots s).map (fun sl => (sl.buf, sl.sz, asInt (sl.ref + 1)))
      = (w.slots s).map (fun sl => (sl.buf, sl.sz, asInt (sl.ref + 1))))
    (ttype : LType) (tv : Word) : w'.valueOf ttype tv = w.valueOf ttype tv := by
  have hslot : ∀ (w : World) (s : Addr), ((w.slots s).bind fun sl =>
      if 1 < asInt (sl.ref + 1) then readBytes sl.buf (asSize sl.sz) else none)
      = ((w.slots s).map (fun sl => (sl.buf, sl.sz, asInt (sl.ref + 1)))).bind (fun p =>
        if 1 < p.2.2 then readBytes p.1 (asSize p.2.1) else none) := by
    intro w s
    cases w.slots s <;> rfl
  cases ttype with
  | string => simp only [World.valueOf_lstring, hls, hslot, hsl]
  | nil => rfl
  | number => rfl
  | boolean => rfl
  | ud => rfl

theorem World.valueOf_congr {w' : World} (hls : w'.lstrings = w.lstrings)
    (hsl : w'.slots = w.slots) (ttype : LType) (tv : Word) :
    w'.valueOf ttype tv = w.valueOf ttype tv :=
  World.valueOf_of_slots hls (fun _ => by rw [hsl]) ttype tv

/-- A string slot reads as the bytes its length, narrowed to an `int`, counts. -/
theorem World.valueOf_slot {p : Word} {slot : Addr} {str : Bytes}
    (hls : w.lstrings p = some ⟨slot⟩) (hsl : w.slots slot = some (LightTable.newString str)) :
    w.valueOf .string p
      = (readBytes (str ++ [0]) (asSize (asInt str.length))).map LuaValue.string := by
  have href : 1 < asInt ((LightTable.newString str).ref + 1) := by
    show 1 < asInt (1 + 1)
    decide
  rw [World.valueOf_lstring, hls, Option.bind_some, hsl, Option.bind_some, if_pos href]
  rfl

/-- They are its own bytes exactly when the length fits an `int`. -/
theorem World.valueOf_string {p : Word} {slot : Addr} {str : Bytes}
    (hls : w.lstrings p = some ⟨slot⟩) (hsl : w.slots slot = some (LightTable.newString str)) :
    w.valueOf .string p = some (.string str) ↔ asSize (asInt str.length) = str.length := by
  rw [World.valueOf_slot hls hsl]
  unfold readBytes
  constructor
  · intro h
    split at h
    next hle =>
      simp only [Option.map_some, Option.some.injEq, LuaValue.string.injEq] at h
      have hlen := congrArg List.length h
      rw [List.length_take, List.length_append, List.length_singleton] at hlen
      rw [List.length_append, List.length_singleton] at hle
      omega
    next => exact absurd h (by simp)
  · intro h
    rw [h]
    simp

/-- The value that a key has now reads as `v`. -/
def World.ReadsNow (w : World) (t : Addr) (key : Key) (v : LuaValue) : Prop :=
  ∀ tmp, ∃ w', ((w.getType t key tmp).bind fun r => r.2.getValue r.1.1 r.1.2) = some (.ok v, w')

/-- `t[k]` reads as `v`, whatever the uninitialised memory holds. -/
def World.LuaReads (w : World) (t : Addr) (k v : LuaValue) : Prop :=
  ∀ tmp, ∃ w', w.luaGet t k tmp = some (.ok v, w')

/-- What the node found for a key reads as. -/
def World.nodeReads (w : World) (o : Option Node) (v : LuaValue) : Prop :=
  match o with
  | some n => w.valueOf n.v.type n.v.v = some v
  | none => v = .nil

theorem World.nodeReads_congr {w' : World} (hls : w'.lstrings = w.lstrings)
    (hsl : w'.slots = w.slots) {o o' : Option Node} (ho : o'.map Node.content = o.map Node.content)
    (v : LuaValue) : w'.nodeReads o' v ↔ w.nodeReads o v := by
  cases o with
  | none =>
    cases o' with
    | none => exact Iff.rfl
    | some n' => exact absurd ho (by simp)
  | some n =>
    cases o' with
    | none => exact absurd ho (by simp)
    | some n' =>
      simp only [Option.map_some, Option.some.injEq] at ho
      have hv : n'.v = n.v := congrArg Prod.snd ho
      show w'.valueOf n'.v.type n'.v.v = some v ↔ w.valueOf n.v.type n.v.v = some v
      rw [hv, World.valueOf_congr hls hsl]

theorem World.getValue_ok {ttype : LType} {tv : Word} {v : LuaValue} :
    (∃ w', w.getValue ttype tv = some (.ok v, w')) ↔ w.valueOf ttype tv = some v := by
  unfold World.valueOf
  cases h : w.getValue ttype tv with
  | none => simp
  | some r =>
    obtain ⟨o, w'⟩ := r
    cases o with
    | ok x => simp
    | error e => simp

/-- What a reader gives for a key, whatever its local `tv` holds. -/
theorem World.Sound.reads_iff (h : w.Sound t tb m) (key : Key) (tmp : Value) (v : LuaValue) :
    (∃ w', ((w.getType t key tmp).bind fun r => r.2.getValue r.1.1 r.1.2) = some (.ok v, w'))
      ↔ w.nodeReads (m.find key) v := by
  rw [h.toOwns.getType h.wf]
  show (∃ w', w.getValue ((m.view key).getD (.nil, tmp.v)).1 ((m.view key).getD (.nil, tmp.v)).2
      = some (.ok v, w')) ↔ _
  rw [World.getValue_ok]
  unfold LMap.view World.nodeReads
  cases m.find key with
  | none =>
    show some LuaValue.nil = some v ↔ v = .nil
    rw [Option.some.injEq]
    exact eq_comm
  | some n => exact Iff.rfl

/-- What a key reads as now. -/
theorem World.Sound.readsNow_iff (h : w.Sound t tb m) (key : Key) (v : LuaValue) :
    w.ReadsNow t key v ↔ w.nodeReads (m.find key) v :=
  ⟨fun hv => (h.reads_iff key .blank v).mp (hv .blank), fun hn tmp => (h.reads_iff key tmp v).mpr hn⟩

/-! ## §2. The Lua integers. -/

/-- The Lua number of an integer key. -/
def intKey (i : Nat) : LuaValue := .number (Binary64.ofNat i)

theorem luaToInteger_ofNat {i : Nat} (h : i ≤ 2147483647) :
    luaToInteger (Binary64.ofNat i) = some (i : Int) :=
  Binary64.truncate_ofNat (by omega)

/-- `_get_key` takes an integer as it is. -/
theorem getKey_int {i : Nat} (h : i ≤ 2147483647) :
    getKey (intKey i) = some (.ok (.num (UInt64.ofNat i))) := by
  have hsize : asSize (i : Int) = i := by
    rw [asSize_of_nonneg (by omega) (by omega)]
    rfl
  show (luaToInteger (Binary64.ofNat i)).bind _ = _
  rw [luaToInteger_ofNat h, Option.bind_some, hsize]
  rfl

/-- `_get` looks up one less. -/
theorem World.luaGet_int {i : Nat} (h1 : 1 ≤ i) (h : i ≤ 2147483647) (w : World) (t : Addr)
    (tmp : Value) :
    w.luaGet t (intKey i) tmp
      = (w.getType t (.num (UInt64.ofNat (i - 1))) tmp).bind
          (fun r => r.2.getValue r.1.1 r.1.2) := by
  have hidx : asInt (i : Int) = i := asInt_of_small (by omega) (by omega)
  have hsize : asSize ((i : Int) - 1) = i - 1 := by
    rw [asSize_of_nonneg (by omega) (by omega)]
    omega
  show (luaToInteger (Binary64.ofNat i)).bind _ = _
  rw [luaToInteger_ofNat h, Option.bind_some, hidx]
  show (if (i : Int) ≤ 0 then _ else (w.getType t (.num (UInt64.ofNat (asSize ((i : Int) - 1)))) tmp).bind _) = _
  rw [if_neg (by omega), hsize]

/-! ## §3. The views of one key. -/

/-- After `v` was stored under `k`, every view of `k` is the same: `t[k]`
reads `v`, and an integer key is read alike by `ipairs`, by `pairs` and from a
converted table. -/
structure World.ViewsAgree (w : World) (t : Addr) (k v : LuaValue) : Prop where
  get : w.LuaReads t k v
  ipairs : ∀ i, 1 ≤ i → i ≤ 2147483647 → k = intKey i → ∀ x, w.LuaReads t k x → ∀ tmp,
    ∃ w', w.ipairsaux t (Binary64.ofNat (i - 1)) tmp
      = some (.ok (if x = .nil then none else some (k, x)), w')
  pairs : ∀ i, 1 ≤ i → i ≤ 2147483647 → k = intKey i → ∀ tmp all w',
    w.pairsAll t tmp = some (.ok all, w') → ∀ x, (k, x) ∈ all → w.LuaReads t k x
  convert : ∀ i, 1 ≤ i → i ≤ 2147483647 → k = intKey i → ∀ tmp heap fuel src entries c w',
    heap src = some entries → (k, v) ∈ entries →
    doConvert tmp heap fuel src w = some (.ok c, w') → w'.LuaReads c k v

/-- The world that `_insert_table` is called in: `set_string` has built the
lstring it stores. -/
def World.storing (w : World) : Arg → World
  | .string str => w.withString str
  | _ => w

/-- The value the setter passes to `_insert_table`. -/
def World.storedValue (w : World) (arg : Arg) (tmp : Value) : Value :=
  match arg with
  | .string _ => { tmp with type := .string, v := w.brk }
  | a => { tmp with type := a.type, v := a.word tmp }

/-- What is written reads as `v`, for a length of a string that fits an `int`;
or the call makes the map grow, and the node that takes over from the written
one reads as `v`. -/
def World.ValueKept (w : World) (m : LMap) (c : SetCall) (v : LuaValue) : Prop :=
  match m.heir (m.Expands c) c.key with
  | some n => (w.storing c.arg).valueOf n.v.type n.v.v = some v
  | none => ∀ str, c.arg = .string str → asSize (asInt str.length) = str.length

/-- What an assignment needs to be read back: a string key whose length fits an
`int`, and a value that is kept. -/
def World.ReadsBack (w : World) (m : LMap) (k v : LuaValue) : Prop :=
  ∃ s arg, k = .string s ∧ v.arg = some arg ∧ (Key.str s).Fits
    ∧ w.ValueKept m ⟨.str s, arg, .blank⟩ v

/-- A converted table does not read an integer key back. -/
theorem convert_int_differs {i : Nat} (h1 : 1 ≤ i) (h : i ≤ 2147483647) {v : LuaValue} {arg : Arg}
    (hv : v.arg = some arg) (w : World) :
    ∃ c w', doConvert .blank (fun _ => some [(intKey i, v)]) 1 0 w = some (.ok c, w')
      ∧ ¬ w'.LuaReads c (intKey i) v := by
  obtain ⟨w₀, tb, hnew, -⟩ := w.newTable_spec
  obtain ⟨tb, hrep⟩ := World.Rep.newTable hnew
  have hkey : (UInt64.ofNat i).toNat = i := by
    rw [UInt64.toNat_ofNat']
    omega
  have hfit : (Key.num (UInt64.ofNat i)).Fits := by
    refine Key.Short.fits ?_
    have hs : (Key.num (UInt64.ofNat i)).szIdx = i := hkey
    unfold Key.Short
    rw [hs]
    omega
  -- the only entry goes into a fresh table
  set c : SetCall := ⟨.num (UInt64.ofNat i), arg, .blank⟩ with hc
  have hempty : ∀ key, (LMap.new 29).depth key = 0 := by
    intro key
    obtain ⟨ch, hch⟩ := LMap.new_inv.toSized.chain key
    have hnil : ch = [] := List.eq_of_mem_replicate (List.mem_of_getElem? hch)
    unfold LMap.depth
    rw [hch, hnil]
    rfl
  have hb : w₀.bucketsAsked w.brk c < 2147483648 := by
    unfold World.bucketsAsked grownSize
    rw [hrep.toOwns.current]
    simp only [hempty]
    split <;> decide
  have hacc : Store.Accepts Store.empty c := by
    intro a ha
    exact absurd ha.symm (Option.some_ne_none a)
  obtain ⟨w', tb', m', hset, hrep', -⟩ := hrep.set (c := c) hfit hacc hb
  have hsetv : w₀.setValue w.brk (.num (UInt64.ofNat i)) v .blank = some (.ok (), w') := by
    rw [World.setValue_arg hv, hset]
    rfl
  have hconv : doConvert .blank (fun _ => some [(intKey i, v)]) 1 0 w = some (.ok w.brk, w') := by
    unfold doConvert
    simp only [hnew, Option.bind_eq_bind, Option.bind_some]
    rw [convertEntries_scalar (getKey_int h) (LuaValue.not_table_of_arg hv), hsetv]
    rfl
  refine ⟨w.brk, w', hconv, ?_⟩
  intro hreads
  obtain ⟨w'', hget⟩ := hreads .blank
  have hne : Key.num (UInt64.ofNat (i - 1)) ≠ Key.num (UInt64.ofNat i) := by
    intro heq
    have hpred : (UInt64.ofNat (i - 1)).toNat = i - 1 := by
      rw [UInt64.toNat_ofNat']
      omega
    have := congrArg UInt64.toNat (Key.num.inj heq)
    omega
  have hnone := hrep'.absent (.num (UInt64.ofNat (i - 1))) (by
    show Store.put Store.empty c.key c.arg (.num (UInt64.ofNat (i - 1))) = none
    rw [Store.put_ne _ hne]
    rfl)
  rw [World.luaGet_int h1 h, hrep'.toOwns.getType hrep'.inv.toWf, hnone] at hget
  have hnil : v = .nil := by
    have hok : (Outcome.ok LuaValue.nil) = .ok v := congrArg Prod.fst (Option.some.inj hget)
    exact (Outcome.ok.inj hok).symm
  rw [hnil] at hv
  exact absurd hv (by simp [LuaValue.arg])

/-! ## §4. Reading a key after it was stored. -/

/-- What a key reads as after an insert under it. -/
theorem World.Sound.readsNow_inserted (h : w.Sound t tb m) {key : Key} {val : Value}
    (hvt : val.type ≠ .nil) {ty : LType} {w' : World}
    (hins : w.insertTable t key val = some (ty, w')) (hty : ty = .nil ∨ ty = val.type)
    {v : LuaValue} (hv : v ≠ .nil) :
    w'.ReadsNow t key v ↔ key.Fits ∧ match m.heir (maxHashDepth ≤ m.depth key) key with
      | some n => w.valueOf n.v.type n.v.v = some v
      | none => w.valueOf val.type val.v = some v := by
  obtain ⟨rfl, hframe, tb', m', hsound', hgrown, hready⟩ := h.insertTable hvt hins
  have hwf := h.wf.inserted key w.brk hvt
  have hfind := hwf.find_grown hgrown hready key
  rw [hsound'.readsNow_iff, World.nodeReads_congr hframe.lstrings hframe.slots hfind]
  cases hf : m.find key with
  | some n =>
    -- the key was there: its union is the new one
    have hfit : key.Fits :=
      (h.wf.node n (LMap.find_mem hf).1).storedKey_fits (LMap.find_mem hf).2
    have htype : n.v.type = val.type := by
      rw [LMap.typeAt_found hf] at hty
      rcases hty with hnil | hty
      · exact absurd hnil (h.wf.type n (LMap.find_mem hf).1)
      · exact hty
    rw [h.wf.toSized.answer_found hf, and_iff_right hfit]
    cases m.heir (maxHashDepth ≤ m.depth key) key with
    | some n' => exact Iff.rfl
    | none =>
      show w.valueOf n.v.type val.v = some v ↔ _
      rw [htype]
  | none =>
    by_cases hfit : key.Fits
    · rw [h.wf.toSized.answer_absent hf hfit, and_iff_right hfit]
      cases m.heir (maxHashDepth ≤ m.depth key) key with
      | some n' => exact Iff.rfl
      | none => exact Iff.rfl
    · rw [hwf.answer_of_not_fits hfit]
      exact ⟨fun hr => absurd hr hv, fun hr => absurd hr.1 hfit⟩

/-- The union a plain setter writes reads as its value. -/
theorem World.valueOf_word {arg : Arg} (ha : arg.type ≠ .string) {v : LuaValue}
    (hv : v.arg = some arg) (w : World) (tmp : Value) :
    w.valueOf arg.type (arg.word tmp) = some v := by
  cases v with
  | number n => cases hv; rfl
  | lightuserdata p => cases hv; rfl
  | boolean b =>
    cases hv
    show some (LuaValue.boolean (Word.b (Word.setB tmp.v (if b then 1 else 0)) != 0)) = _
    rw [Word.b_setB]
    cases b <;> rfl
  | string str => cases hv; exact absurd rfl ha
  | nil => exact absurd hv (by simp [LuaValue.arg])
  | table id => exact absurd hv (by simp [LuaValue.arg])
  | function => exact absurd hv (by simp [LuaValue.arg])
  | userdata => exact absurd hv (by simp [LuaValue.arg])
  | thread => exact absurd hv (by simp [LuaValue.arg])

theorem LuaValue.eq_string {v : LuaValue} {str : Bytes} (h : v.arg = some (.string str)) :
    v = .string str := by
  cases v with
  | string s => cases h; rfl
  | _ => exact absurd h (by simp [LuaValue.arg])

theorem LuaValue.ne_nil {v : LuaValue} {arg : Arg} (h : v.arg = some arg) : v ≠ .nil := by
  rintro rfl
  exact absurd h (by simp [LuaValue.arg])

/-- The union a call writes, where the setter hands it over, reads as its value
when a string's length fits an `int`. -/
theorem World.valueOf_stored {v : LuaValue} {arg : Arg} (hv : v.arg = some arg) (w : World)
    (tmp : Value) :
    (w.storing arg).valueOf (w.storedValue arg tmp).type (w.storedValue arg tmp).v = some v
      ↔ ∀ str, arg = .string str → asSize (asInt str.length) = str.length := by
  by_cases hc : arg.type = .string
  · obtain ⟨str, rfl⟩ := Arg.eq_string hc
    have hls : (w.withString str).lstrings w.brk = some ⟨w.brk + 1⟩ := Function.update_self ..
    have hlen := World.valueOf_string hls (Function.update_self ..)
    rw [LuaValue.eq_string hv]
    refine hlen.trans ⟨?_, fun hr => hr str rfl⟩
    intro hr str' hstr'
    cases hstr'
    exact hr
  · have hplain : w.storing arg = w
        ∧ w.storedValue arg tmp = { tmp with type := arg.type, v := arg.word tmp } := by
      cases arg with
      | string str => exact absurd rfl hc
      | _ => exact ⟨rfl, rfl⟩
    rw [hplain.1, hplain.2]
    refine ⟨?_, fun _ => World.valueOf_word hc hv w tmp⟩
    rintro - str rfl
    exact absurd rfl hc

theorem World.storedValue_type (w : World) (arg : Arg) (tmp : Value) :
    (w.storedValue arg tmp).type = arg.type := by
  cases arg <;> rfl

/-- What an inserting call hands to `_insert_table`. -/
theorem World.Sound.of_inserts (h : w.Sound t tb m) {c : SetCall} {r : Int} {w' : World}
    (hset : w.set t c = some (r, w')) (hi : m.Inserts c) :
    (w.storing c.arg).Sound t tb m ∧ ∃ ty,
      (w.storing c.arg).insertTable t c.key (w.storedValue c.arg c.tmp) = some (ty, w') := by
  cases h.set_case hset with
  | refused hc n hn hne hw => exact absurd hi (h.wf.not_inserts hc hn)
  | swapped str harg n hn hty hup =>
    exact absurd hi (h.wf.not_inserts (by rw [harg]; rfl) hn)
  | insertedString str harg hn ty hins =>
    rw [harg]
    exact ⟨h.withString str, ty, hins⟩
  | insertedPlain hc ty hins =>
    cases harg : c.arg with
    | string str => exact absurd (by rw [harg]; rfl) hc
    | number x =>
      rw [harg] at hins
      exact ⟨h, ty, hins⟩
    | boolean b =>
      rw [harg] at hins
      exact ⟨h, ty, hins⟩
    | ud u =>
      rw [harg] at hins
      exact ⟨h, ty, hins⟩

/-- What the key of an accepted call reads as when the call inserts. -/
theorem World.Sound.readsNow_inserts (h : w.Sound t tb m) {c : SetCall} {w' : World}
    (hset : w.set t c = some (0, w')) (hi : m.Inserts c) {v : LuaValue} (hv : v.arg = some c.arg) :
    w'.ReadsNow t c.key v ↔ c.key.Fits ∧ w.ValueKept m c v := by
  obtain ⟨h₁, ty, hins⟩ := h.of_inserts hset hi
  have hvt : (w.storedValue c.arg c.tmp).type ≠ .nil := by
    rw [w.storedValue_type]
    exact c.arg.type_ne_nil
  have hmis : ¬ w.Mismatch t c := fun hm => (h.set_nonzero_iff hset).mpr hm rfl
  have hty : ty = .nil ∨ ty = (w.storedValue c.arg c.tmp).type := by
    obtain ⟨rfl, -⟩ := h₁.insertTable hvt hins
    rw [w.storedValue_type, ← h.typeOf]
    by_contra hne
    exact hmis (not_or.mp hne)
  have hheir : m.heir (m.Expands c) c.key = m.heir (maxHashDepth ≤ m.depth c.key) c.key := by
    unfold LMap.heir
    exact if_congr hi.expands_iff rfl rfl
  rw [h₁.readsNow_inserted hvt hins hty (LuaValue.ne_nil hv)]
  unfold World.ValueKept
  rw [hheir]
  cases m.heir (maxHashDepth ≤ m.depth c.key) c.key with
  | some n => exact Iff.rfl
  | none => exact and_congr_right (fun _ => World.valueOf_stored hv w c.tmp)

/-- An accepted call that inserts nothing swaps the slot of a string. -/
theorem World.Sound.of_swaps (h : w.Sound t tb m) {c : SetCall} {w' : World}
    (hset : w.set t c = some (0, w')) (hi : ¬ m.Inserts c) :
    ∃ str n, c.arg = .string str ∧ m.find c.key = some n ∧ n.v.type = .string
      ∧ w.updateString n.v.v str = some w' := by
  cases h.set_case hset with
  | refused hc n hn hne hw =>
    have hmis := h.mismatch hn (fun he => hne (he.trans hc))
    exact absurd rfl ((h.set_nonzero_iff hset).mpr hmis)
  | insertedString str harg hn type hins => exact absurd (fun _ => LMap.typeAt_absent hn) hi
  | insertedPlain hc type hins => exact absurd (fun hs => absurd hs hc) hi
  | swapped str harg n hn hty hup => exact ⟨str, n, harg, hn, hty, hup⟩

/-- What its key reads as then. -/
theorem World.Sound.readsNow_swapped (h : w.Sound t tb m) {c : SetCall} {w' : World}
    (hset : w.set t c = some (0, w')) (hi : ¬ m.Inserts c) {v : LuaValue}
    (hv : v.arg = some c.arg) : w'.ReadsNow t c.key v ↔ c.key.Fits ∧ w.ValueKept m c v := by
  obtain ⟨str, n, harg, hn, hty, hup⟩ := h.of_swaps hset hi
  obtain ⟨h', hls, hsl, -⟩ := h.updateString hup
  have hfit : c.key.Fits :=
    (h.wf.node n (LMap.find_mem hn).1).storedKey_fits (LMap.find_mem hn).2
  have hheir : m.heir (m.Expands c) c.key = none := LMap.heir_of_not (fun hx => hi hx.1) m c.key
  rw [h'.readsNow_iff, hn, LuaValue.eq_string (hv.trans (congrArg some harg)), and_iff_right hfit]
  unfold World.ValueKept
  rw [hheir]
  show w'.valueOf n.v.type n.v.v = some (.string str) ↔ _
  rw [hty, World.valueOf_string hls hsl]
  refine ⟨?_, fun hlen => hlen str harg⟩
  intro hlen str' hstr'
  rw [harg] at hstr'
  cases hstr'
  exact hlen

/-- The key of an accepted call reads as its value exactly when it fits and the
value is kept. -/
theorem World.Sound.readsNow_stored (h : w.Sound t tb m) {c : SetCall} {w' : World}
    (hset : w.set t c = some (0, w')) {v : LuaValue} (hv : v.arg = some c.arg) :
    w'.ReadsNow t c.key v ↔ c.key.Fits ∧ w.ValueKept m c v := by
  by_cases hi : m.Inserts c
  · exact h.readsNow_inserts hset hi hv
  · exact h.readsNow_swapped hset hi hv

/-- A string key reads back what a successful call stored exactly when
`ReadsBack` holds. -/
theorem World.Sound.luaReads_stored (h : w.Sound t tb m) {s : Bytes} {arg : Arg} {tmp : Value}
    {w' : World} (hset : w.set t ⟨.str s, arg, tmp⟩ = some (0, w')) {v : LuaValue}
    (hv : v.arg = some arg) :
    w'.LuaReads t (.string s) v ↔ w.ReadsBack m (.string s) v := by
  show w'.ReadsNow t (.str s) v ↔ _
  rw [h.readsNow_stored hset hv]
  constructor
  · exact fun hcond => ⟨s, arg, rfl, hv, hcond⟩
  · rintro ⟨s', arg', hs, ha, hcond⟩
    cases hs
    rw [hv] at ha
    cases ha
    exact hcond

/-! ## §5. Short strings. -/

/-- A string key shorter than 2^31, or an index. -/
def Key.ShortName : Key → Prop
  | .str name => name.length < 2147483648
  | .num _ => True

/-- A call with such a key leaves at most one node for a short string. -/
theorem LMap.Effect.single {m' : LMap} {c : SetCall} (h : m.Effect c m') (hm : m.Wf)
    (hc : c.key.ShortName) {s : Bytes} (hs : m.Single (.str s)) : m'.Single (.str s) := by
  cases h with
  | same hi hm' =>
    rw [hm']
    exact hs
  | inserted hi brk v hv hg hr =>
    refine LMap.Single.grown ?_ (hm.inserted c.key brk hv.type_ne_nil) hg hr
    cases hkey : c.key with
    | num idx => exact hs.inserted hm (Key.stored_num idx s) brk v
    | str name =>
      rw [hkey] at hc
      have hfit : (Key.str name).Fits := Key.Short.fits hc
      by_cases hns : name = s
      · rw [hns] at hfit ⊢
        exact hs.inserted_self hm.toSized hfit brk v
      · exact hs.inserted hm (hfit.stored_ne (fun heq => hns (Key.str.inj heq).symm)) brk v

/-- Nor do any number of calls. -/
theorem World.Sound.single_setAll (h : w.Sound t tb m) {s : Bytes} (hs : m.Single (.str s))
    {calls : List SetCall} (hc : ∀ c ∈ calls, c.key.ShortName) {rs : List Int} {w' : World}
    (hx : w.setAll t calls = some (rs, w')) :
    ∃ tb' m', w'.Sound t tb' m' ∧ m'.Single (.str s) := by
  induction calls generalizing w tb m rs with
  | nil =>
    cases hx
    exact ⟨tb, m, h, hs⟩
  | cons c calls ih =>
    obtain ⟨r, w₁, rs', hset, hrest, -⟩ := (Run.run_cons_some _).mp hx
    obtain ⟨tb₁, m₁, h₁, heff⟩ := h.set_effect hset
    exact ih h₁ (heff.single h.wf (hc c List.mem_cons_self) hs)
      (fun x hx => hc x (List.mem_cons_of_mem c hx)) hrest

/-- A short key that one node stores reads back every short value. -/
theorem LMap.Single.readsBack (hm : m.Sized) {s : Bytes} (hs : m.Single (.str s))
    (hshort : s.length < 2147483648) {v : LuaValue} {arg : Arg} (hv : v.arg = some arg)
    (hlen : ∀ str, v = .string str → str.length < 2147483648) (w : World) :
    w.ReadsBack m (.string s) v := by
  refine ⟨s, arg, rfl, hv, Key.Short.fits (k := .str s) hshort, ?_⟩
  unfold World.ValueKept
  rw [hs.heir hm]
  rintro str rfl
  exact Key.Short.fits (k := .str str) (hlen str (LuaValue.eq_string hv))

/-! ## §6. The result. -/

/-- After an accepted assignment to a string or to an integer from 1 to
2^31 - 1, the views of its key agree exactly when `ReadsBack` holds.  That asks
for a string key, and is so for every one when the strings are short. -/
theorem viewsAgree_iff {w₀ w₁ w₂ : World} {calls : List SetCall} {rs : List Int} (hw : w.Tidy)
    (hnew : w.newTable = some (t, w₀)) (hrun : w₀.setAll t calls = some (rs, w₁))
    {k v : LuaValue} {tmp : Value}
    (hk : (∃ s, k = .string s) ∨ ∃ i, 1 ≤ i ∧ i ≤ 2147483647 ∧ k = intKey i)
    (hset : w₁.luaSet t k v tmp = some (.ok (), w₂)) :
    ∃ m, w₁.current t = some m ∧ (w₂.ViewsAgree t k v ↔ w₁.ReadsBack m k v)
      ∧ ((∀ c ∈ calls, c.key.ShortName) → ∀ s, k = .string s → s.length < 2147483648 →
          (∀ str, v = .string str → str.length < 2147483648) → w₁.ReadsBack m k v) := by
  obtain ⟨tb₀, h₀⟩ := World.Sound.newTable hw hnew
  obtain ⟨tb, m, h⟩ := h₀.setAll hrun
  obtain ⟨key, arg, hkey, hv, hcall⟩ := World.of_luaSet hset
  refine ⟨m, h.toOwns.current, ?_, ?_⟩
  · rcases hk with ⟨s, rfl⟩ | ⟨i, h1, hi, rfl⟩
    · cases hkey
      -- the two integer views say nothing about a string
      rw [← h.luaReads_stored hcall hv]
      constructor
      · exact fun hviews => hviews.get
      · intro hget
        refine ⟨hget, ?_, ?_, ?_⟩
        · intro i _ _ hki
          exact absurd hki (by simp [intKey])
        · intro i _ _ hki
          exact absurd hki (by simp [intKey])
        · intro i _ _ hki
          exact absurd hki (by simp [intKey])
    · constructor
      · intro hviews
        -- what is converted from an integer key is stored under another one
        obtain ⟨c, w', hconv, hdiff⟩ := convert_int_differs h1 hi hv w₂
        exact absurd (hviews.convert i h1 hi rfl .blank _ 1 0 _ c w' rfl (by simp) hconv) hdiff
      · rintro ⟨s, arg', hks, -⟩
        exact absurd hks (by simp [intKey])
  · rintro hcalls s rfl hshort hlen
    obtain ⟨tb', m', h', hs⟩ := h₀.single_setAll (LMap.new_single 29 (.str s)) hcalls hrun
    have hm : m' = m := Option.some.inj (h'.toOwns.current.symm.trans h.toOwns.current)
    rw [hm] at hs
    exact hs.readsBack h.wf.toSized hshort hv hlen w₁

/-- The theorem at a fresh table and one assignment to a string key. -/
theorem viewsAgree_iff_string :
    ∃ t w₀ w₂ m, World.empty.newTable = some (t, w₀)
      ∧ w₀.luaSet t (.string [97]) (.string [98]) .blank = some (.ok (), w₂)
      ∧ w₀.current t = some m
      ∧ (w₂.ViewsAgree t (.string [97]) (.string [98])
          ↔ w₀.ReadsBack m (.string [97]) (.string [98])) := by
  have hall : (World.empty.newTable.bind fun p =>
      (p.2.luaSet p.1 (.string [97]) (.string [98]) .blank).map Prod.fst)
      = some (.ok ()) := by decide
  obtain ⟨⟨t, w₀⟩, hnew, hall⟩ := Option.bind_eq_some_iff.mp hall
  obtain ⟨⟨o, w₂⟩, hset, rfl⟩ := Option.map_eq_some_iff.mp hall
  have hrun : w₀.setAll t [] = some ([], w₀) := rfl
  obtain ⟨m, hm, hiff, -⟩ := viewsAgree_iff World.empty_tidy hnew hrun (Or.inl ⟨[97], rfl⟩) hset
  exact ⟨t, w₀, w₂, m, hnew, hset, hm, hiff⟩

/-- After `t[1] = 5` on a fresh table `t[1]` reads `nil`, and `ipairs` gives
`1, 5`. -/
theorem luaGet_misses_one :
    ∃ t w₀ w₂, World.empty.newTable = some (t, w₀)
      ∧ w₀.luaSet t (intKey 1) (intKey 5) .blank = some (.ok (), w₂)
      ∧ (w₂.luaGet t (intKey 1) .blank).map Prod.fst = some (.ok .nil)
      ∧ (w₂.ipairsaux t (Binary64.ofNat 0) .blank).map Prod.fst
          = some (.ok (some (intKey 1, intKey 5)))
      ∧ ¬ w₂.ViewsAgree t (intKey 1) (intKey 5) := by
  have hall : (World.empty.newTable.bind fun p =>
      (p.2.luaSet p.1 (intKey 1) (intKey 5) .blank).map fun q =>
        (q.1, decide ((q.2.luaGet p.1 (intKey 1) .blank).map Prod.fst = some (.ok .nil)),
          decide ((q.2.ipairsaux p.1 (Binary64.ofNat 0) .blank).map Prod.fst
            = some (.ok (some (intKey 1, intKey 5))))))
      = some (.ok (), true, true) := by
    decide +kernel
  obtain ⟨⟨t, w₀⟩, hnew, hall⟩ := Option.bind_eq_some_iff.mp hall
  obtain ⟨⟨o, w₂⟩, hset, hall⟩ := Option.map_eq_some_iff.mp hall
  simp only [Prod.mk.injEq, decide_eq_true_eq] at hall
  obtain ⟨rfl, hget, hipairs⟩ := hall
  refine ⟨t, w₀, w₂, hnew, hset, hget, hipairs, ?_⟩
  intro hviews
  obtain ⟨w', hread⟩ := hviews.get .blank
  rw [hread] at hget
  have hval : (Outcome.ok (intKey 5)) = .ok .nil := Option.some.inj hget
  exact absurd hval (by simp [intKey])

end LightTable
