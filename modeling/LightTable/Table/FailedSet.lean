/-
  LightTable.Table.FailedSet
  ──────────────────────────
  What a setter call does when the key holds another type.

  `set_string` looks first and leaves the table alone.  `set_number`,
  `set_boolean` and `set_ud` insert first and compare after: the union of the
  key has been overwritten by then, under the old type.  `World.SetMeets` says
  what a call is meant to do, and `setMeets_iff` when it does.
-/
import LightTable.Map.Answer
import LightTable.Table.Reach

namespace LightTable

open ChainedHash

variable {w : World} {t : Addr} {tb : Table} {m : LMap}

/-! ## §1. What a key reads as. -/

/-- The type and the value that can be read under a key; a string is the
buffer its lstring leads to, if any. -/
inductive Reading where
  | nil
  | number (n : Word)
  | boolean (b : Int32)
  | ud (u : Word)
  | string (buf : Option Bytes)
  deriving DecidableEq

/-- What the union `v` shows under a type. -/
def World.shows (w : World) (type : LType) (v : Word) : Reading :=
  match type with
  | .nil => .nil
  | .number => .number v
  | .boolean => .boolean (Word.b v)
  | .ud => .ud v
  | .string => .string ((w.lstrings v).bind (fun ls => (w.slots ls.slot).map StringSlot.buf))

/-- What the node found for a key shows. -/
def World.showsNode (w : World) : Option Node → Reading
  | some n => w.shows n.v.type n.v.v
  | none => .nil

/-- What `get_type` and its union show for a key. -/
def World.readBack (w : World) (t : Addr) (key : Key) : Option Reading :=
  (w.getType t key .blank).map (fun r => w.shows r.1.1 r.1.2)

/-- The type `get_type` gives. -/
def World.typeOf (w : World) (t : Addr) (key : Key) : LType :=
  ((w.getType t key .blank).map (fun r => r.1.1)).getD .nil

theorem World.Sound.typeOf (h : w.Sound t tb m) (key : Key) : w.typeOf t key = m.typeAt key := by
  unfold World.typeOf LMap.typeAt
  rw [h.toOwns.getType h.wf]
  cases m.view key <;> rfl

theorem World.Sound.readBack (h : w.Sound t tb m) (key : Key) :
    w.readBack t key = some (w.showsNode (m.find key)) := by
  unfold World.readBack
  rw [h.toOwns.getType h.wf]
  unfold LMap.view
  cases m.find key <;> rfl

/-- What is shown depends on the content of the node only. -/
theorem World.showsNode_congr (w : World) {o o' : Option Node}
    (h : o.map Node.content = o'.map Node.content) : w.showsNode o = w.showsNode o' := by
  cases o with
  | none =>
    cases o' with
    | none => rfl
    | some n' => exact absurd h (by simp)
  | some n =>
    cases o' with
    | none => exact absurd h (by simp)
    | some n' =>
      simp only [Option.map_some, Option.some.injEq] at h
      have hv : n.v = n'.v := congrArg Prod.snd h
      show w.shows n.v.type n.v.v = w.shows n'.v.type n'.v.v
      rw [hv]

theorem World.showsNode_frame {w' : World} (hf : World.Frame t w w') (o : Option Node) :
    w'.showsNode o = w.showsNode o := by
  cases o with
  | none => rfl
  | some n =>
    show w'.shows n.v.type n.v.v = w.shows n.v.type n.v.v
    unfold World.shows
    rw [hf.lstrings, hf.slots]

/-! ## §2. What an insert needs to make the map grow. -/

/-- The length read back out of a new node stays inside its slot. -/
def Key.Readable : Key → Prop
  | .str name => asSize (asInt name.length) ≤ name.length + 1
  | .num _ => True

theorem freshNode_readable (brk : Addr) (key : Key) (v : Value) :
    (freshNode brk key v).storedKey ≠ none ↔ key.Readable := by
  cases key with
  | num idx => simp [freshNode, newNode, Node.storedKey, Key.Readable]
  | str name =>
    by_cases h : asSize (asInt name.length) ≤ name.length + 1 <;>
      simp [freshNode, newNode, Node.storedKey, newString, readBytes, Key.Readable, h]

/-- When the inserted map can be doubled. -/
theorem LMap.Wf.ready_inserted {m : LMap} (hm : m.Wf) (key : Key) (brk : Addr) (v : Value) :
    (m.inserted brk key v).Ready ↔ m.Ready ∧ (m.find key = none → key.Readable) := by
  -- an insert keeps the number of buckets
  have hroom : (m.inserted brk key v).CanGrow ↔ m.CanGrow := by
    unfold LMap.CanGrow
    rw [LMap.inserted_size]
  have hkeys : (∀ n ∈ (m.inserted brk key v).entries, n.storedKey ≠ none)
      ↔ (∀ n ∈ m.entries, n.storedKey ≠ none) ∧ (m.find key = none → key.Readable) := by
    cases h : m.find key with
    | some n =>
      -- an overwrite stores the same keys
      have hmap := hm.toSized.map_overwrite key v.v (g := Node.storedKey) (fun _ => rfl)
      have hall : ∀ l : List Node, (∀ n ∈ l, n.storedKey ≠ none) ↔ none ∉ l.map Node.storedKey := by
        intro l
        simp [List.mem_map]
      rw [LMap.inserted_found h, hall, hmap, ← hall]
      simp
    | none =>
      -- a link adds one node, whose key must be readable as well
      have hperm := hm.toSized.entries_link key (freshNode brk key v)
      rw [LMap.inserted_absent h]
      constructor
      · intro hl
        refine ⟨fun n hn => hl n (hperm.mem_iff.mpr (List.mem_cons_of_mem _ hn)), fun _ => ?_⟩
        exact (freshNode_readable brk key v).mp (hl _ (hperm.mem_iff.mpr List.mem_cons_self))
      · rintro ⟨hold, hnew⟩ n hn
        rcases List.mem_cons.mp (hperm.mem_iff.mp hn) with rfl | hn
        · exact (freshNode_readable brk key v).mpr (hnew rfl)
        · exact hold n hn
  constructor
  · rintro ⟨hr, hk⟩
    exact ⟨⟨hroom.mp hr, (hkeys.mp hk).1⟩, (hkeys.mp hk).2⟩
  · rintro ⟨⟨hr, hk⟩, hnew⟩
    exact ⟨hroom.mpr hr, hkeys.mpr ⟨hk, hnew⟩⟩

/-! ## §3. Refused calls. -/

/-- The key holds a value of another type than the call writes. -/
def World.Mismatch (w : World) (t : Addr) (c : SetCall) : Prop :=
  w.typeOf t c.key ≠ .nil ∧ w.typeOf t c.key ≠ c.arg.type

/-- The call returns, nonzero exactly on another type, and then every key
reads as before. -/
def World.SetMeets (w : World) (t : Addr) (c : SetCall) : Prop :=
  ∃ r w', w.set t c = some (r, w') ∧ (r ≠ 0 ↔ w.Mismatch t c)
    ∧ (r ≠ 0 → ∀ key, w'.readBack t key = w.readBack t key)

/-- Writing the union `u` into the node `n` of a key cannot be seen: under the
type of `n` it shows what the old union shows, or a node behind `n` takes over
and shows that; and a growth, after which the last node of a key answers and
not the first, changes nothing under the other keys. -/
structure World.Unseen (w : World) (m : LMap) (key : Key) (n : Node) (u : Word) : Prop where
  self : (match m.heir (maxHashDepth ≤ m.depth key) key with
    | some n' => w.shows n'.v.type n'.v.v
    | none => w.shows n.v.type u) = w.shows n.v.type n.v.v
  others : maxHashDepth ≤ m.depth key → ∀ key', key' ≠ key →
    w.showsNode (m.last key') = w.showsNode (m.find key')

/-- What a call needs of the map `m` it finds. -/
structure World.SetHarmless (w : World) (m : LMap) (c : SetCall) : Prop where
  -- an insert that reaches the depth limit can double the map
  grows : (c.arg.type = .string → m.find c.key = none) → maxHashDepth ≤ m.depth c.key →
    m.Ready ∧ (m.find c.key = none → c.key.Readable)
  -- the slot that `set_string` swaps is there
  live : c.arg.type = .string → ∀ n, m.find c.key = some n → n.v.type = .string → w.Live n.v.v
  -- the union written under another type cannot be told from the old one
  same : c.arg.type ≠ .string → ∀ n, m.find c.key = some n → n.v.type ≠ c.arg.type →
    w.Unseen m c.key n (c.arg.word c.tmp)

/-- The return code of the setters that insert first. -/
theorem World.Sound.mismatch_iff (h : w.Sound t tb m) (c : SetCall) :
    (if m.typeAt c.key ≠ c.arg.type ∧ m.typeAt c.key ≠ .nil then (1 : Int) else 0) ≠ 0
      ↔ w.Mismatch t c := by
  unfold World.Mismatch
  rw [h.typeOf]
  by_cases h1 : m.typeAt c.key = .nil
  · simp [h1]
  · by_cases h2 : m.typeAt c.key = c.arg.type <;> simp [h1, h2, c.arg.type_ne_nil]

/-- On a mismatch the key is there and holds another type. -/
theorem World.Sound.of_mismatch (h : w.Sound t tb m) {c : SetCall} (hmis : w.Mismatch t c) :
    ∃ n, m.find c.key = some n ∧ n.v.type ≠ c.arg.type := by
  unfold World.Mismatch at hmis
  rw [h.typeOf] at hmis
  cases hf : m.find c.key with
  | none => exact absurd (LMap.typeAt_absent hf) hmis.1
  | some n => exact ⟨n, rfl, by rw [← LMap.typeAt_found hf]; exact hmis.2⟩

theorem World.Sound.mismatch (h : w.Sound t tb m) {c : SetCall} {n : Node}
    (hf : m.find c.key = some n) (hty : n.v.type ≠ c.arg.type) : w.Mismatch t c := by
  unfold World.Mismatch
  rw [h.typeOf, LMap.typeAt_found hf]
  exact ⟨h.wf.type n (LMap.find_mem hf).1, hty⟩

/-- A call that goes through gives a nonzero code exactly on a mismatch. -/
theorem World.Sound.set_nonzero_iff (h : w.Sound t tb m) {c : SetCall} {r : Int} {w' : World}
    (hx : w.set t c = some (r, w')) : r ≠ 0 ↔ w.Mismatch t c := by
  by_cases hc : c.arg.type = .string
  · obtain ⟨str, hstr⟩ := Arg.eq_string hc
    cases hf : m.find c.key with
    | none =>
      -- a new key gives 0, and there is nothing to mismatch
      rw [h.toOwns.set_inserts h.wf hstr hf] at hx
      obtain ⟨x, -, hx⟩ := Option.map_eq_some_iff.mp hx
      have hr : (0 : Int) = r := congrArg Prod.fst hx
      constructor
      · intro hne
        exact absurd hr.symm hne
      · intro hmis
        obtain ⟨n, hn, -⟩ := h.of_mismatch hmis
        rw [hf] at hn
        exact absurd hn (by simp)
    | some n =>
      by_cases hty : n.v.type = .string
      · rw [h.toOwns.set_swaps h.wf hstr hf hty] at hx
        obtain ⟨w₁, -, hx⟩ := Option.map_eq_some_iff.mp hx
        have hr : (0 : Int) = r := congrArg Prod.fst hx
        constructor
        · intro hne
          exact absurd hr.symm hne
        · intro hmis
          obtain ⟨n', hn', hne⟩ := h.of_mismatch hmis
          rw [hf, Option.some.injEq] at hn'
          rw [← hn'] at hne
          exact absurd (hty.trans hc.symm) hne
      · rw [h.toOwns.set_refuses h.wf hstr hf hty] at hx
        have hr : 1 = r := congrArg Prod.fst (Option.some.inj hx)
        -- the one case that gives 1
        have hne : n.v.type ≠ c.arg.type := fun he => hty (he.trans hc)
        exact ⟨fun _ => h.mismatch hf hne, fun _ => by rw [← hr]; decide⟩
  · -- the plain setters compare the old type with theirs
    rw [World.set_of_plain hc] at hx
    obtain ⟨⟨type, w₁⟩, hins, hx⟩ := Option.bind_eq_some_iff.mp hx
    obtain ⟨rfl, -⟩ := h.insertTable
      (v := { c.tmp with type := c.arg.type, v := c.arg.word c.tmp }) c.arg.type_ne_nil hins
    have hr : _ = r := congrArg Prod.fst (Option.some.inj hx)
    rw [← hr]
    exact h.mismatch_iff c

/-- So the code of a call says nothing that is not known before. -/
theorem World.Sound.meets_iff_keeps (h : w.Sound t tb m) (c : SetCall) :
    w.SetMeets t c ↔ ∃ r w', w.set t c = some (r, w')
      ∧ (w.Mismatch t c → ∀ key, w'.readBack t key = w.readBack t key) := by
  constructor
  · rintro ⟨r, w', hx, hr, hsame⟩
    exact ⟨r, w', hx, fun hmis => hsame (hr.mpr hmis)⟩
  · rintro ⟨r, w', hx, hsame⟩
    have hr := h.set_nonzero_iff hx
    exact ⟨r, w', hx, hr, fun hne => hsame (hr.mp hne)⟩

/-! ## §4. The setters that insert first. -/

/-- What the written node and the others show after an overwrite, from the
nodes that were there. -/
theorem World.unseen_iff (hm : m.Wf) {key : Key} {n : Node} (hn : m.find key = some n)
    (brk : Addr) (v : Value) :
    w.Unseen m key n v.v ↔ ∀ key', w.showsNode
        ((m.inserted brk key v).answer (maxHashDepth ≤ m.depth key) key')
      = w.showsNode (m.find key') := by
  have hfit := (hm.node n (LMap.find_mem hn).1).storedKey_fits (LMap.find_mem hn).2
  have hself : w.showsNode ((m.inserted brk key v).answer (maxHashDepth ≤ m.depth key) key)
      = match m.heir (maxHashDepth ≤ m.depth key) key with
        | some n' => w.shows n'.v.type n'.v.v
        | none => w.shows n.v.type v.v := by
    rw [hm.toSized.answer_found hn]
    cases m.heir (maxHashDepth ≤ m.depth key) key <;> rfl
  have hold : w.showsNode (m.find key) = w.shows n.v.type n.v.v := by
    rw [hn]
    rfl
  constructor
  · intro h key'
    by_cases hk : key' = key
    · rw [hk, hself, hold]
      exact h.self
    · rw [hm.answer_inserted (hfit.stored_ne hk)]
      unfold LMap.answer
      split
      next hd => exact h.others hd key' hk
      next => rfl
  · intro h
    refine ⟨hself.symm.trans ((h key).trans hold), ?_⟩
    intro hd key' hk
    have hother := h key'
    rw [hm.answer_inserted (hfit.stored_ne hk)] at hother
    unfold LMap.answer at hother
    rwa [if_pos hd] at hother

/-- `set_number`, `set_boolean` and `set_ud`. -/
theorem World.Sound.setPlain_iff (h : w.Sound t tb m) {c : SetCall} (hc : c.arg.type ≠ .string) :
    w.SetMeets t c ↔ w.SetHarmless m c := by
  set v : Value := { c.tmp with type := c.arg.type, v := c.arg.word c.tmp } with hv
  have hvt : v.type ≠ .nil := c.arg.type_ne_nil
  have hset : w.set t c = (w.insertTable t c.key v).bind (fun x =>
      some (if x.1 ≠ c.arg.type ∧ x.1 ≠ .nil then 1 else 0, x.2)) := by
    rw [World.set_of_plain hc]
    rfl
  rw [h.meets_iff_keeps]
  constructor
  · -- a call that meets its purpose went through the insert
    rintro ⟨r, w', hx, hsame⟩
    rw [hset] at hx
    obtain ⟨⟨type, w₁⟩, hins, hx⟩ := Option.bind_eq_some_iff.mp hx
    cases hx
    obtain ⟨rfl, hframe, tb', m', hsound', hgrown, hready⟩ := h.insertTable hvt hins
    refine ⟨fun _ hd => (h.wf.ready_inserted c.key w.brk v).mp (hready hd),
      fun hs => absurd hs hc, ?_⟩
    intro _ n hn hty
    refine (World.unseen_iff h.wf hn w.brk v).mpr ?_
    intro key
    have hback := hsame (h.mismatch hn hty) key
    rw [hsound'.readBack, h.readBack, Option.some.injEq, World.showsNode_frame hframe] at hback
    have hfind := (h.wf.inserted c.key w.brk hvt).find_grown hgrown hready key
    rw [← w.showsNode_congr hfind]
    exact hback
  · intro hh
    have hready : maxHashDepth ≤ m.depth c.key → (m.inserted w.brk c.key v).Ready :=
      fun hd => (h.wf.ready_inserted c.key w.brk v).mpr (hh.grows (fun hs => absurd hs hc) hd)
    obtain ⟨w', tb', m', heq, howns, hgrown, -, hframe, -⟩ :=
      h.toOwns.insertTable h.wf c.key hvt hready
    have hwf' := h.wf.inserted c.key w.brk hvt
    have hsound' : w'.Sound t tb' m' :=
      ⟨howns, (hwf'.grown hgrown hready).1, h.tidy.frame hframe⟩
    refine ⟨_, w', by rw [hset, heq]; rfl, ?_⟩
    intro hmis key
    obtain ⟨n, hn, hty⟩ := h.of_mismatch hmis
    have hfind := hwf'.find_grown hgrown hready key
    rw [hsound'.readBack, h.readBack, World.showsNode_frame hframe, w.showsNode_congr hfind]
    exact congrArg some ((World.unseen_iff h.wf hn w.brk v).mp (hh.same hc n hn hty) key)

/-! ## §5. `set_string`. -/

/-- `set_string` looks before it inserts. -/
theorem World.Sound.setString_iff (h : w.Sound t tb m) {c : SetCall} {str : Bytes}
    (hc : c.arg = .string str) : w.SetMeets t c ↔ w.SetHarmless m c := by
  have hty : c.arg.type = .string := by rw [hc]; rfl
  rw [h.meets_iff_keeps]
  cases hf : m.find c.key with
  | none =>
    -- the key is absent: nothing can fail but the insert
    have hmis : ¬ w.Mismatch t c := by
      intro hmis
      obtain ⟨n, hn, -⟩ := h.of_mismatch hmis
      rw [hf] at hn
      exact absurd hn (by simp)
    have h' := h.withString str
    have hvt : LType.string ≠ .nil := by decide
    have hset := h.toOwns.set_inserts h.wf hc hf
    constructor
    · rintro ⟨r, w', hx, -⟩
      rw [hset] at hx
      obtain ⟨⟨type, w₁⟩, hins, -⟩ := Option.map_eq_some_iff.mp hx
      obtain ⟨-, -, -, -, -, -, hready⟩ := h'.insertTable hvt hins
      refine ⟨fun _ hd => (h.wf.ready_inserted c.key _ _).mp (hready hd), ?_,
        fun hne => absurd hty hne⟩
      intro _ n hn
      rw [hf] at hn
      exact absurd hn (by simp)
    · intro hh
      obtain ⟨w', tb', m', heq, -⟩ := h'.toOwns.insertTable h.wf c.key
        (v := { c.tmp with type := .string, v := w.brk }) hvt
        (fun hd => (h.wf.ready_inserted c.key _ _).mpr (hh.grows (fun _ => hf) hd))
      exact ⟨0, w', by rw [hset, heq]; rfl, fun hm => absurd hm hmis⟩
  | some n =>
    have hins : ¬ (c.arg.type = .string → m.find c.key = none) := by
      intro hn
      have := hn hty
      rw [hf] at this
      exact absurd this (by simp)
    by_cases hstr : n.v.type = .string
    · -- the key holds a string: its slot is swapped
      have hmis : ¬ w.Mismatch t c := by
        intro hmis
        obtain ⟨n', hn', hne⟩ := h.of_mismatch hmis
        rw [hf] at hn'
        cases hn'
        exact hne (hstr.trans hty.symm)
      have hset := h.toOwns.set_swaps h.wf hc hf hstr
      constructor
      · rintro ⟨r, w', hx, -⟩
        rw [hset] at hx
        obtain ⟨w₁, hup, -⟩ := Option.map_eq_some_iff.mp hx
        refine ⟨fun hn => absurd hn hins, ?_, fun hne => absurd hty hne⟩
        intro _ n' hn' _
        rw [hf] at hn'
        cases hn'
        exact h.tidy.of_updateString hup
      · intro hh
        obtain ⟨w', heq, -⟩ := h.tidy.updateString (hh.live hty n hf hstr) str
        exact ⟨0, w', by rw [hset, heq]; rfl, fun hm => absurd hm hmis⟩
    · -- the key holds another type: nothing is done
      constructor
      · intro _
        refine ⟨fun hn => absurd hn hins, ?_, fun hne => absurd hty hne⟩
        intro _ n' hn' hs
        rw [hf] at hn'
        cases hn'
        exact absurd hs hstr
      · intro _
        exact ⟨1, w, h.toOwns.set_refuses h.wf hc hf hstr, fun _ _ => rfl⟩

/-! ## §6. The result. -/

/-- Any call. -/
theorem World.Sound.meets_iff (h : w.Sound t tb m) (c : SetCall) :
    w.SetMeets t c ↔ w.SetHarmless m c := by
  by_cases hc : c.arg.type = .string
  · obtain ⟨str, hstr⟩ := Arg.eq_string hc
    exact h.setString_iff hstr
  · exact h.setPlain_iff hc

/-- In every table reached by setter calls, a call does what it is meant to do
exactly when it is harmless. -/
theorem setMeets_iff {w₀ w₁ : World} {calls : List SetCall} {rs : List Int} (hw : w.Tidy)
    (hnew : w.newTable = some (t, w₀)) (hrun : w₀.setAll t calls = some (rs, w₁)) (c : SetCall) :
    ∃ m, w₁.current t = some m ∧ (w₁.SetMeets t c ↔ w₁.SetHarmless m c) := by
  obtain ⟨tb₀, h₀⟩ := World.Sound.newTable hw hnew
  obtain ⟨tb, m, h⟩ := h₀.setAll hrun
  exact ⟨m, h.toOwns.current, h.meets_iff c⟩

/-- The theorem at a table that holds one string, for a `set_number` on it. -/
theorem setMeets_iff_string :
    ∃ t w₀ w₁ m, World.empty.newTable = some (t, w₀)
      ∧ w₀.setAll t [⟨.num 1, .string [97], .blank⟩] = some ([0], w₁)
      ∧ w₁.current t = some m
      ∧ (w₁.SetMeets t ⟨.num 1, .number 0, .blank⟩
          ↔ w₁.SetHarmless m ⟨.num 1, .number 0, .blank⟩) := by
  have hsome : World.empty.newTable.isSome = true := by decide
  set p := World.empty.newTable.get hsome with hp
  have hnew : World.empty.newTable = some p := (Option.some_get hsome).symm
  have hrun : ∃ w₁, p.2.setAll p.1 [⟨.num 1, .string [97], .blank⟩] = some ([0], w₁) := ⟨_, rfl⟩
  obtain ⟨w₁, hrun⟩ := hrun
  obtain ⟨m, hm, hiff⟩ := setMeets_iff World.empty_tidy hnew hrun ⟨.num 1, .number 0, .blank⟩
  exact ⟨p.1, p.2, w₁, m, hnew, hrun, hm, hiff⟩

/-- A `set_number` on a string gives 1, and the string can no longer be read:
its lstring is now the null pointer. -/
theorem setNumber_destroys_string :
    ∃ t w₀ w₁, World.empty.newTable = some (t, w₀)
      ∧ w₀.setAll t [⟨.num 1, .string [97], .blank⟩] = some ([0], w₁)
      ∧ w₁.readBack t (.num 1) = some (.string (some [97, 0]))
      ∧ (w₁.set t ⟨.num 1, .number 0, .blank⟩).map (fun x => (x.1, x.2.readBack t (.num 1)))
          = some (1, some (.string none))
      ∧ ¬ w₁.SetMeets t ⟨.num 1, .number 0, .blank⟩ := by
  have hall : (World.empty.newTable.bind fun p =>
      (p.2.setAll p.1 [⟨.num 1, .string [97], .blank⟩]).bind fun q =>
        some (q.1, q.2.readBack p.1 (.num 1), (q.2.set p.1 ⟨.num 1, .number 0, .blank⟩).map
          (fun x => (x.1, x.2.readBack p.1 (.num 1)))))
      = some ([0], some (.string (some [97, 0])), some (1, some (.string none))) := by decide
  obtain ⟨⟨t, w₀⟩, hnew, hall⟩ := Option.bind_eq_some_iff.mp hall
  obtain ⟨⟨rs, w₁⟩, hrun, hall⟩ := Option.bind_eq_some_iff.mp hall
  simp only [Option.some.injEq, Prod.mk.injEq] at hall
  obtain ⟨rfl, hbefore, hafter⟩ := hall
  refine ⟨t, w₀, w₁, hnew, hrun, hbefore, hafter, ?_⟩
  rintro ⟨r, w', hx, -, hsame⟩
  rw [hx] at hafter
  simp only [Option.map_some, Option.some.injEq, Prod.mk.injEq] at hafter
  have hback := hsame (by rw [hafter.1]; decide) (.num 1)
  rw [hafter.2, hbefore] at hback
  exact absurd hback (by decide)

end LightTable
