/-
  LightTable.Lua.Traversal
  ────────────────────────
  A `pairs` traversal whose body assigns to the same table.

  The closure of `_pairs` keeps the pointers to the key strings that the map
  had when the traversal began.  An assignment that makes the map grow frees
  the old map with all its key strings, so the traversal is sound exactly as
  long as no assignment does so while a string key is still to come
  (`traversal_valid_iff`).
-/
import LightTable.Lua.Index
import LightTable.Table.Ledger
import LightTable.Table.Growth

namespace LightTable

variable {w w₀ w' : World} {t : Addr} {tb : Table} {m m' : LMap}

/-! ## §1. A traversal with a body. -/

/-- One assignment `t[k] = v` of the body. -/
structure Assignment where
  k : LuaValue
  v : LuaValue
  tmp : Value

/-- A successful assignment. -/
def World.assign (w : World) (t : Addr) (a : Assignment) : Option (Unit × World) :=
  match w.luaSet t a.k a.v a.tmp with
  | some (.ok (), w') => some ((), w')
  | _ => none

/-- Successful assignments, one after the other. -/
def World.assignAll (w : World) (t : Addr) (body : List Assignment) :
    Option (List Unit × World) :=
  Run.run (fun w a => World.assign w t a) w body

/-- An iterator call, with the assignments made before it and what its local
`tv` holds. -/
structure Round where
  body : List Assignment
  tmp : Value

/-- The state of the loop: the upvalues of the closure and the control
variable. -/
structure Traversal where
  w : World
  st : PairsState
  control : LuaValue

/-- One round: the body assigns, then the iterator is called. -/
def Traversal.round (t : Addr) (s : Traversal) (r : Round) :
    Option (Option (LuaValue × LuaValue) × Traversal) := do
  let (_, w) ← s.w.assignAll t r.body
  match ← w.pairsaux t s.st s.control r.tmp with
  | (.ok (some p), st, w) => return (some p, { w := w, st := st, control := p.1 })
  | (.ok none, st, w) => return (none, { w := w, st := st, control := s.control })
  | (.error _, _, _) => none

/-! ## §2. Valid traversals, and assignments that keep them so. -/

/-- The Lua key that a record is pushed as. -/
def TableKey.luaName (r : TableKey) : Option LuaValue :=
  r.toKey.map fun key => match key with
    | .str s => .string s
    | .num _ => .number (Binary64.ofNat r.szIdx)

/-- The record that the next iterator call visits. -/
def PairsState.next (st : PairsState) : Option TableKey := st.keys[st.position.toNat]?

/-- The iterator call of a round is valid: it reads no key string that was
freed and gives the next key with its value at that moment, or the end. -/
def Traversal.CallValid (t : Addr) (s : Traversal) (r : Round) : Prop :=
  ∀ os w, s.w.assignAll t r.body = some (os, w) →
    match s.st.next with
    | some rec => (∀ a sl, rec.key = some (a, sl) → a ∉ w.freed) ∧
        ∃ key name v w', rec.toKey = some key ∧ rec.luaName = some name ∧ w.ReadsNow t key v
          ∧ w.pairsaux t s.st s.control r.tmp
            = some (.ok (some (name, v)), { s.st with position := s.st.position + 1 }, w')
    | none => ∃ st w', w.pairsaux t s.st s.control r.tmp = some (.ok none, st, w')

/-- Every call of the loop is valid, and the loop sees the keys of the
snapshot in order and then ends. -/
structure Traversal.Valid (t : Addr) (s : Traversal) (rounds : List Round) : Prop where
  calls : Run.Along (Traversal.round t) (Traversal.CallValid t) s rounds
  yields : ∃ outs s', Run.run (Traversal.round t) s rounds = some (outs, s')
    ∧ outs.map (Option.map Prod.fst) = s.st.keys.map TableKey.luaName ++ [none]

/-- The assignment makes the map grow. -/
def World.AssignExpands (w : World) (t : Addr) (a : Assignment) : Prop :=
  ∃ key arg, getKey a.k = some (.ok key) ∧ a.v.arg = some arg ∧ w.Expands t ⟨key, arg, a.tmp⟩

/-- No assignment of a body makes the map grow. -/
def World.BodyStays (w : World) (t : Addr) (body : List Assignment) : Prop :=
  Run.Along (fun w a => World.assign w t a) (fun w a => ¬ w.AssignExpands t a) w body

/-- While a string key is still to come, no assignment of the round makes the
map grow; and the key that is visited can be read, with its value. -/
structure Traversal.Careful (t : Addr) (s : Traversal) (r : Round) : Prop where
  body : (∃ (j : Nat) (rec : TableKey), s.st.position.toNat ≤ j ∧ s.st.keys[j]? = some rec
      ∧ rec.key ≠ none) → s.w.BodyStays t r.body
  value : ∀ os w, s.w.assignAll t r.body = some (os, w) → ∀ rec, s.st.next = some rec →
    ∃ key v, rec.toKey = some key ∧ w.ReadsNow t key v

/-! ## §3. One iterator call. -/

/-- Reading a value leaves a sound table sound, and every other value as it
reads. -/
theorem World.Sound.getValue (h : w.Sound t tb m) {ttype : LType} {tv : Word}
    {o : Outcome LuaValue} (hx : w.getValue ttype tv = some (o, w')) :
    w'.Sound t tb m ∧ (∀ type v, w'.valueOf type v = w.valueOf type v) ∧ ∃ v, o = .ok v := by
  have hsame : ∀ v, some (Outcome.ok v, w) = some (o, w') →
      w'.Sound t tb m ∧ (∀ type v, w'.valueOf type v = w.valueOf type v) ∧ ∃ v, o = .ok v := by
    intro v hv
    cases hv
    exact ⟨h, fun _ _ => rfl, v, rfl⟩
  cases ttype with
  | nil => exact hsame _ hx
  | number => exact hsame _ hx
  | boolean => exact hsame _ hx
  | ud => exact hsame _ hx
  | string =>
    obtain ⟨⟨bytes, w₁⟩, hstr, hx⟩ := Option.bind_eq_some_iff.mp hx
    cases hx
    obtain ⟨slot, sl, sl', hsl, hbrk, htables, hls, hslots, -, hbuf, hsz, href⟩ :=
      World.valueString_slots hstr
    refine ⟨⟨h.toOwns.congr htables (Nat.le_of_eq hbrk.symm), h.wf, ?_⟩, ?_, _, rfl⟩
    · intro a s ha
      rw [hls] at ha
      rw [hbrk]
      exact h.tidy a s ha
    · intro type v
      refine World.valueOf_of_slots hls ?_ type v
      intro s
      rw [hslots]
      by_cases hs : s = slot
      · rw [hs, Function.update_self, hsl]
        exact congrArg some (Prod.ext hbuf (Prod.ext hsz href))
      · rw [Function.update_of_ne hs]

/-- It frees nothing. -/
theorem World.Ledger.getValue {held : List Addr} (hl : w.Ledger held) {ttype : LType} {tv : Word}
    {o : Outcome LuaValue} (hx : w.getValue ttype tv = some (o, w')) :
    w'.Ledger held ∧ w'.freed = w.freed := by
  have hsame : ∀ v, some (Outcome.ok v, w) = some (o, w') →
      w'.Ledger held ∧ w'.freed = w.freed := by
    intro v hv
    cases hv
    exact ⟨hl, rfl⟩
  cases ttype with
  | nil => exact hsame _ hx
  | number => exact hsame _ hx
  | boolean => exact hsame _ hx
  | ud => exact hsame _ hx
  | string =>
    obtain ⟨⟨bytes, w₁⟩, hstr, hx⟩ := Option.bind_eq_some_iff.mp hx
    cases hx
    obtain ⟨slot, sl, sl', hsl, hbrk, -, -, hslots, hfreed, -⟩ := World.valueString_slots hstr
    exact ⟨hl.putSlot hsl hbrk hslots (by rw [hfreed]; rfl), hfreed⟩

/-- The control variable is `nil` or a key that was yielded. -/
def LuaValue.IsControl : LuaValue → Prop
  | .nil => True
  | .number _ => True
  | .string _ => True
  | _ => False

theorem World.pairsaux_eq {control : LuaValue} (hc : control.IsControl) (w : World) (t : Addr)
    (st : PairsState) (tmp : Value) : w.pairsaux t st control tmp = w.nextMap t st tmp := by
  cases control with
  | nil => rfl
  | number n => rfl
  | string s => rfl
  | boolean b => exact absurd hc id
  | lightuserdata p => exact absurd hc id
  | table x => exact absurd hc id
  | function => exact absurd hc id
  | userdata => exact absurd hc id
  | thread => exact absurd hc id

theorem TableKey.luaName_control {r : TableKey} {name : LuaValue} (h : r.luaName = some name) :
    name.IsControl := by
  unfold TableKey.luaName at h
  obtain ⟨key, -, rfl⟩ := Option.map_eq_some_iff.mp h
  cases key with
  | str s => exact trivial
  | num idx => exact trivial

/-- Behind the last key the traversal ends. -/
theorem World.nextMap_end (w : World) (t : Addr) {st : PairsState}
    (h : st.mapSize = 0 ∨ st.mapSize ≤ st.position) (tmp : Value) :
    ∃ st', w.nextMap t st tmp = some (.ok none, st', w) := by
  unfold World.nextMap
  by_cases h0 : st.mapSize = 0
  · rw [if_pos h0]
    exact ⟨st, rfl⟩
  · rw [if_neg h0, if_pos (h.resolve_left h0)]
    exact ⟨_, rfl⟩

/-- What a call at a record does. -/
theorem World.nextMap_eq {st : PairsState} {rec : TableKey} (hnext : st.next = some rec)
    (h0 : st.mapSize ≠ 0) (hlt : st.position < st.mapSize) (w : World) (t : Addr) (tmp : Value) :
    w.nextMap t st tmp = rec.toKey.bind fun key => rec.luaName.bind fun name =>
      ((w.getType t key tmp).bind fun r => r.2.getValue r.1.1 r.1.2).map fun x =>
        ((match x.1 with
          | .error e => .error e
          | .ok v => .ok (some (name, v))), { st with position := st.position + 1 }, x.2) := by
  unfold PairsState.next at hnext
  unfold World.nextMap TableKey.luaName
  rw [if_neg h0, if_neg (by omega), hnext, Option.bind_eq_bind, Option.bind_some]
  cases rec.toKey with
  | none => rfl
  | some key =>
    simp only [Option.bind_eq_bind, Option.bind_some, Option.map_some]
    cases w.getType t key tmp with
    | none => rfl
    | some r =>
      obtain ⟨⟨ttype, tv⟩, w₁⟩ := r
      simp only [Option.bind_some]
      cases w₁.getValue ttype tv with
      | none => rfl
      | some x =>
        obtain ⟨o, w₂⟩ := x
        cases o <;> rfl

/-- A key whose value can be read is yielded with it. -/
theorem World.nextMap_some {st : PairsState} {rec : TableKey} (hnext : st.next = some rec)
    (h0 : st.mapSize ≠ 0) (hlt : st.position < st.mapSize) {key : Key} (hkey : rec.toKey = some key)
    {name : LuaValue} (hname : rec.luaName = some name) {tmp : Value} {v : LuaValue}
    (hread : ((w.getType t key tmp).bind fun r => r.2.getValue r.1.1 r.1.2) = some (.ok v, w')) :
    w.nextMap t st tmp
      = some (.ok (some (name, v)), { st with position := st.position + 1 }, w') := by
  rw [World.nextMap_eq hnext h0 hlt, hkey, Option.bind_some, hname, Option.bind_some, hread]
  rfl

/-- What an iterator call that yields has read. -/
theorem World.of_nextMap {st st' : PairsState} {tmp : Value} {p : LuaValue × LuaValue}
    (hx : w.nextMap t st tmp = some (.ok (some p), st', w')) :
    st.mapSize ≠ 0 ∧ st.position < st.mapSize ∧ ∃ rec key v, st.next = some rec
      ∧ rec.toKey = some key
      ∧ ((w.getType t key tmp).bind fun r => r.2.getValue r.1.1 r.1.2) = some (.ok v, w') := by
  unfold World.nextMap at hx
  by_cases h0 : st.mapSize = 0
  · rw [if_pos h0] at hx
    exact absurd (congrArg Prod.fst (Option.some.inj hx)) (by simp)
  · rw [if_neg h0] at hx
    by_cases hle : st.mapSize ≤ st.position
    · rw [if_pos hle] at hx
      exact absurd (congrArg Prod.fst (Option.some.inj hx)) (by simp)
    · rw [if_neg hle] at hx
      obtain ⟨rec, hrec, hx⟩ := Option.bind_eq_some_iff.mp hx
      obtain ⟨key, hkey, hx⟩ := Option.bind_eq_some_iff.mp hx
      obtain ⟨⟨⟨ttype, tv⟩, w₁⟩, hget, hx⟩ := Option.bind_eq_some_iff.mp hx
      obtain ⟨⟨o, w₂⟩, hval, hx⟩ := Option.bind_eq_some_iff.mp hx
      cases o with
      | error e => exact absurd (congrArg Prod.fst (Option.some.inj hx)) (by simp)
      | ok v =>
        simp only [Option.pure_def, Option.some.injEq, Prod.mk.injEq] at hx
        refine ⟨h0, by omega, rec, key, v, hrec, hkey, ?_⟩
        rw [hget, Option.bind_some, hval, hx.2.2]

/-! ## §4. The body of a round. -/

/-- A successful assignment is one setter call: when it makes the map grow, all
blocks the map had are freed, and otherwise they stay. -/
theorem World.Sound.assign (h : w.Sound t tb m) (hl : w.Ledger (tb.map :: m.blocks))
    {a : Assignment} {u : Unit} (hx : w.assign t a = some (u, w')) :
    ∃ tb' m', w'.Sound t tb' m' ∧ w'.Ledger (tb'.map :: m'.blocks)
      ∧ (∀ x ∈ w.freed, x ∈ w'.freed)
      ∧ (w.AssignExpands t a → ∀ x ∈ m.blocks, x ∈ w'.freed)
      ∧ (¬ w.AssignExpands t a → ∀ x ∈ m.blocks, x ∈ m'.blocks) := by
  have hset : w.luaSet t a.k a.v a.tmp = some (.ok (), w') := by
    unfold World.assign at hx
    split at hx
    next w₁ heq =>
      cases hx
      exact heq
    next => exact absurd hx (by simp)
  obtain ⟨key, arg, hkey, harg, hcall⟩ := World.of_luaSet hset
  obtain ⟨tb', m', hs', hl', hfreed, hblocks⟩ := h.set_ledger hl hcall
  -- whether it grows is a matter of the call it comes down to
  have hiff : w.AssignExpands t a ↔ m.Expands ⟨key, arg, a.tmp⟩ := by
    rw [← h.toOwns.expands_iff]
    constructor
    · rintro ⟨key', arg', hkey', harg', hexp⟩
      rw [hkey] at hkey'
      rw [harg] at harg'
      cases hkey'
      cases harg'
      exact hexp
    · exact fun hexp => ⟨key, arg, hkey, harg, hexp⟩
  refine ⟨tb', m', hs', hl', hfreed, ?_, ?_⟩
  · intro hexp
    rwa [if_pos (hiff.mp hexp)] at hblocks
  · intro hexp
    rwa [if_neg (fun he => hexp (hiff.mpr he))] at hblocks

/-- The blocks that the map had before the body: all there, or all freed. -/
theorem World.Sound.assignAll (h : w.Sound t tb m) (hl : w.Ledger (tb.map :: m.blocks))
    {body : List Assignment} {os : List Unit} (hx : w.assignAll t body = some (os, w')) :
    ∃ tb' m', w'.Sound t tb' m' ∧ w'.Ledger (tb'.map :: m'.blocks)
      ∧ (∀ x ∈ w.freed, x ∈ w'.freed)
      ∧ (w.BodyStays t body → ∀ x ∈ m.blocks, x ∈ m'.blocks)
      ∧ (¬ w.BodyStays t body → ∀ x ∈ m.blocks, x ∈ w'.freed) := by
  induction body generalizing w tb m os with
  | nil =>
    cases hx
    exact ⟨tb, m, h, hl, fun x hx => hx, fun _ x hx => hx, fun hn => absurd trivial hn⟩
  | cons a body ih =>
    obtain ⟨u, w₁, os', hassign, hrest, -⟩ := (Run.run_cons_some _).mp hx
    obtain ⟨tb₁, m₁, h₁, hl₁, hfreed₁, hgrow₁, hstay₁⟩ := h.assign hl hassign
    obtain ⟨tb', m', h', hl', hfreed', hstay', hgrow'⟩ := ih h₁ hl₁ hrest
    refine ⟨tb', m', h', hl', fun x hx => hfreed' x (hfreed₁ x hx), ?_, ?_⟩
    · intro hstays x hx
      exact hstay' (hstays.2 u w₁ hassign) x (hstay₁ hstays.1 x hx)
    · intro hgrows x hx
      by_cases hexp : w.AssignExpands t a
      · exact hfreed' x (hgrow₁ hexp x hx)
      · -- the growth comes later: until then the blocks stay
        refine hgrow' ?_ x (hstay₁ hexp x hx)
        intro hstays
        apply hgrows
        refine ⟨hexp, ?_⟩
        intro o s' ho
        have ho : w.assign t a = some (o, s') := ho
        rw [hassign] at ho
        cases ho
        exact hstays

/-! ## §5. A round. -/

theorem PairsState.next_eq {st : PairsState} {p : Nat} (hp : st.position = p) :
    st.next = st.keys[p]? := by
  unfold PairsState.next
  rw [hp, Int.toNat_natCast]

/-- The first of the records still to come is the one the next call visits. -/
theorem PairsState.next_of_drop {st : PairsState} {p : Nat} (hp : st.position = p)
    {rec : TableKey} {rest : List TableKey} (hdrop : st.keys.drop p = rec :: rest) :
    st.keys[p]? = some rec ∧ p < st.keys.length ∧ st.next = some rec
      ∧ st.keys.drop (p + 1) = rest := by
  have hget : st.keys[p]? = some rec := by
    have := congrArg List.head? hdrop
    rwa [List.head?_drop] at this
  have hlt : p < st.keys.length := (List.getElem?_eq_some_iff.mp hget).1
  have hnext : st.next = some rec := by rw [PairsState.next_eq hp, hget]
  have hrest : st.keys.drop (p + 1) = rest := by
    rw [← List.drop_drop, hdrop]
    rfl
  exact ⟨hget, hlt, hnext, hrest⟩

/-- The loop stands before the record `p` of its snapshot. -/
structure Traversal.At (s : Traversal) (t : Addr) (p : Nat) (tb : Table) (m : LMap) : Prop where
  sound : s.w.Sound t tb m
  ledger : s.w.Ledger (tb.map :: m.blocks)
  position : s.st.position = p
  control : s.control.IsControl

theorem Traversal.At.next_eq {s : Traversal} {p : Nat} (h : s.At t p tb m) :
    s.st.next = s.st.keys[p]? :=
  PairsState.next_eq h.position

/-- The state after a round that yields. -/
def Traversal.after (s : Traversal) (w : World) (name : LuaValue) : Traversal :=
  { w := w, st := { s.st with position := s.st.position + 1 }, control := name }

/-- A round whose call yields moves the loop to the next record. -/
theorem Traversal.At.round {s : Traversal} {p : Nat} (h : s.At t p tb m) {r : Round}
    {os : List Unit} {w₁ w₂ : World} (hbody : s.w.assignAll t r.body = some (os, w₁))
    {rec : TableKey} {name v : LuaValue} (hname : rec.luaName = some name)
    (hcall : w₁.pairsaux t s.st s.control r.tmp
      = some (.ok (some (name, v)), { s.st with position := s.st.position + 1 }, w₂)) :
    Traversal.round t s r = some (some (name, v), s.after w₂ name)
      ∧ ∃ tb' m', (s.after w₂ name).At t (p + 1) tb' m' ∧ (∀ x ∈ s.w.freed, x ∈ w₁.freed)
        ∧ (∀ x ∈ w₁.freed, x ∈ w₂.freed)
        ∧ (s.w.BodyStays t r.body → ∀ x ∈ m.blocks, x ∈ m'.blocks)
        ∧ (¬ s.w.BodyStays t r.body → ∀ x ∈ m.blocks, x ∈ w₁.freed) := by
  have hround : Traversal.round t s r = some (some (name, v), s.after w₂ name) := by
    unfold Traversal.round
    simp only [hbody, hcall, Option.bind_eq_bind, Option.bind_some, Option.pure_def]
    rfl
  obtain ⟨tb₁, m₁, h₁, hl₁, hfreed₁, hstay₁, hgrow₁⟩ := h.sound.assignAll h.ledger hbody
  rw [World.pairsaux_eq h.control] at hcall
  obtain ⟨-, -, rec', key, v', -, -, hread⟩ := World.of_nextMap hcall
  rw [h₁.toOwns.getType h₁.wf] at hread
  obtain ⟨h₂, -⟩ := h₁.getValue hread
  obtain ⟨hl₂, hfreed₂⟩ := hl₁.getValue hread
  refine ⟨hround, tb₁, m₁, ⟨h₂, hl₂, ?_, TableKey.luaName_control hname⟩, hfreed₁,
    fun x hx => by rw [hfreed₂]; exact hx, hstay₁, hgrow₁⟩
  show s.st.position + 1 = ((p + 1 : Nat) : Int)
  rw [h.position]
  rfl

/-- A round whose call ends the traversal. -/
theorem Traversal.round_end {s : Traversal} {r : Round} {os : List Unit} {w₁ w₂ : World}
    {st : PairsState} (hbody : s.w.assignAll t r.body = some (os, w₁))
    (hcall : w₁.pairsaux t s.st s.control r.tmp = some (.ok none, st, w₂)) :
    Traversal.round t s r = some (none, { w := w₂, st := st, control := s.control }) := by
  unfold Traversal.round
  simp only [hbody, hcall, Option.bind_eq_bind, Option.bind_some, Option.pure_def]

/-! ## §6. The loop. -/

/-- The assignments of every round succeed. -/
def Traversal.Succeeds (t : Addr) (s : Traversal) (rounds : List Round) : Prop :=
  Run.Along (Traversal.round t) (fun s r => (s.w.assignAll t r.body).isSome) s rounds

instance (t : Addr) (s : Traversal) (rounds : List Round) : Decidable (s.Succeeds t rounds) :=
  inferInstanceAs (Decidable (Run.Along _ _ s rounds))

/-- The string keys still to come are key strings of the current map. -/
def Traversal.Held (s : Traversal) (p : Nat) (m : LMap) : Prop :=
  ∀ (j : Nat) (rec : TableKey), p ≤ j → s.st.keys[j]? = some rec →
    ∀ a sl, rec.key = some (a, sl) → a ∈ m.blocks

/-- They stay, if the round keeps the strings of the map whenever one of them is
a string key. -/
theorem Traversal.Held.after {s : Traversal} {p : Nat} {m' : LMap} (h : s.Held p m)
    (hkeeps : ∀ (a : Addr) (sl : StringSlot) (j : Nat) (rec : TableKey), p ≤ j →
      s.st.keys[j]? = some rec → rec.key = some (a, sl) → ∀ x ∈ m.blocks, x ∈ m'.blocks)
    (w : World) (name : LuaValue) : (s.after w name).Held (p + 1) m' := by
  intro j rec hj hrec a sl hkey
  have hj : p ≤ j := Nat.le_of_succ_le hj
  exact hkeeps a sl j rec hj hrec hkey a (h j rec hj hrec a sl hkey)

/-- A careful loop of which `rest` is still to come goes through. -/
theorem Traversal.At.valid {rest : List TableKey} :
    ∀ {s : Traversal} {p : Nat} {tb : Table} {m : LMap} {rounds : List Round},
      s.At t p tb m → s.Held p m → s.st.keys.drop p = rest → s.st.mapSize = s.st.keys.length →
      rounds.length = rest.length + 1 → p ≤ s.st.keys.length →
      s.Succeeds t rounds → Run.Along (Traversal.round t) (Traversal.Careful t) s rounds →
      Run.Along (Traversal.round t) (Traversal.CallValid t) s rounds
        ∧ ∃ outs s', Run.run (Traversal.round t) s rounds = some (outs, s')
          ∧ outs.map (Option.map Prod.fst) = rest.map TableKey.luaName ++ [none] := by
  induction rest with
  | nil =>
    intro s p tb m rounds h hheld hdrop hsize hlen hp hsucc hcare
    obtain ⟨r, rfl⟩ := List.length_eq_one_iff.mp hlen
    have hend : s.st.keys.length ≤ p := List.drop_eq_nil_iff.mp hdrop
    have hnext : s.st.next = none := by
      rw [h.next_eq]
      exact List.getElem?_eq_none hend
    obtain ⟨⟨os, w₁⟩, hbody⟩ := Option.isSome_iff_exists.mp hsucc.1
    have hpast : s.st.mapSize ≤ s.st.position := by
      rw [hsize, h.position]
      omega
    obtain ⟨st, hcall⟩ := World.nextMap_end w₁ t (Or.inr hpast) r.tmp
    rw [← World.pairsaux_eq h.control] at hcall
    have hround := Traversal.round_end hbody hcall
    refine ⟨⟨?_, fun _ _ _ => trivial⟩, [none], _, (Run.run_cons_some _).mpr
      ⟨none, _, [], hround, rfl, rfl⟩, rfl⟩
    intro os' w' hbody'
    rw [hbody] at hbody'
    cases hbody'
    rw [hnext]
    exact ⟨st, w₁, hcall⟩
  | cons rec rest ih =>
    intro s p tb m rounds h hheld hdrop hsize hlen hp hsucc hcare
    obtain ⟨r, rounds, rfl⟩ := List.exists_cons_of_length_eq_add_one hlen
    obtain ⟨hget, hlt, hnext, hdrop'⟩ := PairsState.next_of_drop h.position hdrop
    obtain ⟨⟨os, w₁⟩, hbody⟩ := Option.isSome_iff_exists.mp hsucc.1
    -- the call reads the key and its value
    obtain ⟨tb₁, m₁, h₁, hl₁, -, hstay₁, -⟩ := h.sound.assignAll h.ledger hbody
    obtain ⟨key, v, hkey, hread⟩ := hcare.1.value os w₁ hbody rec hnext
    obtain ⟨name, hname⟩ : ∃ name, rec.luaName = some name := by
      unfold TableKey.luaName
      rw [hkey]
      exact ⟨_, rfl⟩
    obtain ⟨w₂, hval⟩ := hread r.tmp
    have hcall := World.nextMap_some hnext (by rw [hsize]; omega)
      (by rw [hsize, h.position]; omega) hkey hname hval
    rw [← World.pairsaux_eq h.control] at hcall
    obtain ⟨hround, tb', m', h', -, -, hstay', -⟩ := h.round hbody hname hcall
    have hstrings : ∀ a sl (j : Nat) (rec : TableKey), p ≤ j → s.st.keys[j]? = some rec →
        rec.key = some (a, sl) → s.w.BodyStays t r.body := by
      intro a sl j rec' hj hrec hkey'
      refine hcare.1.body ⟨j, rec', ?_, hrec, by rw [hkey']; exact Option.some_ne_none _⟩
      rw [h.position, Int.toNat_natCast]
      exact hj
    have hvalid : Traversal.CallValid t s r := by
      intro os' w' hbody'
      rw [hbody] at hbody'
      cases hbody'
      rw [hnext]
      refine ⟨?_, key, name, v, w₂, hkey, hname, hread, hcall⟩
      intro a sl hrec
      have hmem := hstay₁ (hstrings a sl p rec (Nat.le_refl p) hget hrec) a
        (hheld p rec (Nat.le_refl p) hget a sl hrec)
      exact hl₁.not_freed (List.mem_cons_of_mem _ hmem)
    have hheld' : (s.after w₂ name).Held (p + 1) m' :=
      hheld.after (fun a sl j rec' hj hrec hkey' => hstay' (hstrings a sl j rec' hj hrec hkey')) w₂
        name
    obtain ⟨hcalls, outs, s', hrun, houts⟩ := ih h' hheld' hdrop' hsize
      (Nat.succ.inj hlen) hlt (hsucc.2 _ _ hround) (hcare.2 _ _ hround)
    refine ⟨⟨hvalid, ?_⟩, some (name, v) :: outs, s', (Run.run_cons_some _).mpr
      ⟨_, _, _, hround, hrun, rfl⟩, ?_⟩
    · intro o s₁ ho
      rw [hround] at ho
      cases ho
      exact hcalls
    · rw [List.map_cons, houts, List.map_cons, hname]
      rfl

/-- What a valid call at a record gives. -/
theorem Traversal.CallValid.some {s : Traversal} {r : Round} (h : Traversal.CallValid t s r)
    {rec : TableKey} (hnext : s.st.next = some rec) {os : List Unit} {w₁ : World}
    (hbody : s.w.assignAll t r.body = some (os, w₁)) :
    (∀ a sl, rec.key = some (a, sl) → a ∉ w₁.freed)
      ∧ ∃ key name v w', rec.toKey = some key ∧ rec.luaName = some name ∧ w₁.ReadsNow t key v
        ∧ w₁.pairsaux t s.st s.control r.tmp
          = some (.ok (some (name, v)), { s.st with position := s.st.position + 1 }, w') := by
  have hcall := h os w₁ hbody
  rwa [hnext] at hcall

/-- A key string that was freed and is still to come makes some call invalid. -/
theorem Traversal.At.doomed {a : Addr} {sl : StringSlot} {j : Nat} {rec : TableKey} :
    ∀ {rounds : List Round} {s : Traversal} {p : Nat} {tb : Table} {m : LMap} {r : Round}
      {os : List Unit} {w₁ : World},
      s.At t p tb m → p ≤ j → s.st.keys[j]? = some rec → rec.key = some (a, sl) →
      s.w.assignAll t r.body = some (os, w₁) → a ∈ w₁.freed →
      j ≤ p + rounds.length → s.Succeeds t (r :: rounds) →
      ¬ Run.Along (Traversal.round t) (Traversal.CallValid t) s (r :: rounds) := by
  intro rounds
  induction rounds with
  | nil =>
    intro s p tb m r os w₁ h hp hrec hkey hbody ha hj hsucc hvalid
    have hjp : j = p := Nat.le_antisymm hj hp
    have hnext : s.st.next = some rec := by rw [h.next_eq, ← hjp, hrec]
    exact (hvalid.1.some hnext hbody).1 a sl hkey ha
  | cons r' rounds ih =>
    intro s p tb m r os w₁ h hp hrec hkey hbody ha hj hsucc hvalid
    have hlt : p < s.st.keys.length :=
      Nat.lt_of_le_of_lt hp (List.getElem?_eq_some_iff.mp hrec).1
    have hnext : s.st.next = some s.st.keys[p] := by
      rw [h.next_eq]
      exact List.getElem?_eq_getElem hlt
    obtain ⟨hfree, key, name, v, w₂, -, hname, -, hcall⟩ := hvalid.1.some hnext hbody
    by_cases hjp : j = p
    · -- this call reads it
      subst hjp
      have heq : s.st.keys[j] = rec := (List.getElem?_eq_some_iff.mp hrec).2
      rw [heq] at hfree
      exact hfree a sl hkey ha
    · -- a later one does
      obtain ⟨hround, tb', m', h', -, hfreed, -⟩ := h.round hbody hname hcall
      have hsucc' := hsucc.2 _ _ hround
      obtain ⟨⟨os', w₁'⟩, hbody'⟩ := Option.isSome_iff_exists.mp hsucc'.1
      obtain ⟨-, -, -, -, hfreed', -⟩ := h'.sound.assignAll h'.ledger hbody'
      have hj' : j ≤ p + 1 + rounds.length := by
        rw [List.length_cons] at hj
        omega
      exact ih h' (by omega) hrec hkey hbody' (hfreed' a (hfreed a ha)) hj' hsucc'
        (hvalid.2 _ _ hround)

/-- A loop whose calls are all valid was careful, and its snapshot was counted
right. -/
theorem Traversal.At.careful {rest : List TableKey} :
    ∀ {s : Traversal} {p : Nat} {tb : Table} {m : LMap} {rounds : List Round},
      s.At t p tb m → s.Held p m → s.st.keys.drop p = rest →
      rounds.length = rest.length + 1 → p ≤ s.st.keys.length →
      s.Succeeds t rounds → Run.Along (Traversal.round t) (Traversal.CallValid t) s rounds →
      Run.Along (Traversal.round t) (Traversal.Careful t) s rounds
        ∧ (p < s.st.keys.length → (s.st.keys.length : Int) ≤ s.st.mapSize) := by
  induction rest with
  | nil =>
    intro s p tb m rounds h hheld hdrop hlen hp hsucc hvalid
    obtain ⟨r, rfl⟩ := List.length_eq_one_iff.mp hlen
    have hend : s.st.keys.length ≤ p := List.drop_eq_nil_iff.mp hdrop
    refine ⟨⟨⟨?_, ?_⟩, fun _ _ _ => trivial⟩, fun hlt => absurd hlt (Nat.not_lt.mpr hend)⟩
    · rintro ⟨j, rec, hj, hrec, -⟩
      rw [h.position, Int.toNat_natCast] at hj
      have := (List.getElem?_eq_some_iff.mp hrec).1
      omega
    · intro os w₁ _ rec hnext
      rw [h.next_eq, List.getElem?_eq_none hend] at hnext
      exact absurd hnext (by simp)
  | cons rec rest ih =>
    intro s p tb m rounds h hheld hdrop hlen hp hsucc hvalid
    obtain ⟨r, rounds, rfl⟩ := List.exists_cons_of_length_eq_add_one hlen
    obtain ⟨hget, hlt, hnext, hdrop'⟩ := PairsState.next_of_drop h.position hdrop
    have hrest : rounds.length = s.st.keys.length - p := by
      have := congrArg List.length hdrop
      rw [List.length_drop] at this
      rw [this]
      exact Nat.succ.inj hlen
    obtain ⟨⟨os, w₁⟩, hbody⟩ := Option.isSome_iff_exists.mp hsucc.1
    obtain ⟨-, key, name, v, w₂, hkey, hname, hread, hcall⟩ := hvalid.1.some hnext hbody
    obtain ⟨hround, tb', m', h', -, -, hstay, hgrow⟩ := h.round hbody hname hcall
    have hpos : s.st.position < s.st.mapSize := by
      rw [World.pairsaux_eq h.control] at hcall
      exact (World.of_nextMap hcall).2.1
    rw [h.position] at hpos
    -- a growth would free a key string that is still to come
    have hstrings : ∀ a sl (j : Nat) (rec : TableKey), p ≤ j → s.st.keys[j]? = some rec →
        rec.key = some (a, sl) → s.w.BodyStays t r.body := by
      intro a sl j rec' hj hrec hkey'
      by_contra hgrows
      have hfreed := hgrow hgrows a (hheld j rec' hj hrec a sl hkey')
      have hjlt := (List.getElem?_eq_some_iff.mp hrec).1
      exact h.doomed hj hrec hkey' hbody hfreed (by omega) hsucc hvalid
    have hcare : Traversal.Careful t s r := by
      constructor
      · rintro ⟨j, rec', hj, hrec, hne⟩
        rw [h.position, Int.toNat_natCast] at hj
        obtain ⟨⟨a, sl⟩, hkey'⟩ := Option.ne_none_iff_exists'.mp hne
        exact hstrings a sl j rec' hj hrec hkey'
      · intro os' w' hbody' rec' hnext'
        rw [hbody] at hbody'
        cases hbody'
        rw [hnext] at hnext'
        cases hnext'
        exact ⟨key, v, hkey, hread⟩
    have hheld' : (s.after w₂ name).Held (p + 1) m' :=
      hheld.after (fun a sl j rec' hj hrec hkey' => hstay (hstrings a sl j rec' hj hrec hkey')) w₂
        name
    obtain ⟨hcares, hsize⟩ := ih h' hheld' hdrop' (Nat.succ.inj hlen) hlt (hsucc.2 _ _ hround)
      (hvalid.2 _ _ hround)
    refine ⟨⟨hcare, ?_⟩, ?_⟩
    · intro o s₁ ho
      rw [hround] at ho
      cases ho
      exact hcares
    · intro _
      by_cases hlast : p + 1 < s.st.keys.length
      · exact hsize hlast
      · omega

/-! ## §7. The result. -/

/-- The snapshot that `_pairs` takes, when the capacity is an `int`. -/
theorem World.Sound.luaPairs_eq (h : w.Sound t tb m) (hs : m.size * maxHashDepth < 2147483648) :
    w.luaPairs t = some ({ mapSize := ((min m.entries.length (capacity m.size - 1) : Nat) : Int)
                           position := 0
                           keys := m.takeRecords (capacity m.size - 1) }, w) := by
  have hcap := h.wf.capacity_eq
  have hlen := m.length_takeRecords (capacity m.size - 1)
  unfold World.luaPairs
  rw [h.toOwns.size h.wf hs, Option.bind_eq_bind, Option.bind_some]
  show (w.keys t (capacity m.size)).bind _ = _
  rw [h.toOwns.keys_size h.wf hs, h.wf.keysLimit_capacity, Option.bind_some, ← hlen]
  show some (_, w) = _
  rw [asInt_of_small (by omega) (by omega)]

/-- A call of `_pairs` that goes through takes that snapshot. -/
theorem World.Sound.of_luaPairs (h : w.Sound t tb m) {st : PairsState}
    (hx : w.luaPairs t = some (st, w')) :
    m.size * maxHashDepth < 2147483648 ∧ w' = w ∧ st.position = 0
      ∧ st.mapSize = asInt st.keys.length ∧ ∀ rec ∈ st.keys, ∃ n ∈ m.entries, n.record = rec := by
  obtain ⟨⟨cap, w₁⟩, hsize, hrest⟩ := Option.bind_eq_some_iff.mp hx
  obtain ⟨⟨keys, w₂⟩, hkeys, hst⟩ := Option.bind_eq_some_iff.mp hrest
  obtain ⟨-, rfl, hs⟩ := h.toOwns.of_size hsize
  obtain ⟨hrecords, hw⟩ := h.toOwns.of_keys h.wf hkeys
  generalize keysLimit cap = limit at hrecords
  simp only [Option.pure_def, Option.some.injEq, Prod.mk.injEq] at hst
  obtain ⟨rfl, rfl⟩ := hst
  refine ⟨hs, hw, rfl, rfl, ?_⟩
  intro rec hrec
  rw [hrecords] at hrec
  obtain ⟨n, hn, hnr⟩ := List.mem_map.mp hrec
  exact ⟨n, List.mem_of_mem_take hn, hnr⟩

theorem Node.mem_blocks_record {n : Node} {a : Addr} {sl : StringSlot}
    (h : n.record.key = some (a, sl)) : a ∈ n.blocks := by
  unfold Node.record at h
  split at h
  · have hstr : n.strkey = some (a, sl) := h
    unfold Node.blocks
    rw [hstr]
    simp
  · exact absurd h (by simp)

/-- A traversal of any table is valid, whatever its body assigns, exactly when
the length of the snapshot fits an `int` and the rounds are careful. -/
theorem traversal_valid_iff {calls : List SetCall} {rs : List Int} {w₁ w₂ : World}
    {st : PairsState} {rounds : List Round} (hw : w.Tidy) (hl : w.Ledger [])
    (hnew : w.newTable = some (t, w₀)) (hx : w₀.setAll t calls = some (rs, w₁))
    (hpairs : w₁.luaPairs t = some (st, w₂)) (hlen : rounds.length = st.keys.length + 1)
    (hsucc : Traversal.Succeeds t ⟨w₂, st, .nil⟩ rounds) :
    Traversal.Valid t ⟨w₂, st, .nil⟩ rounds
      ↔ st.keys.length < 2147483648
        ∧ Run.Along (Traversal.round t) (Traversal.Careful t) ⟨w₂, st, .nil⟩ rounds := by
  obtain ⟨tb₀, h₀, hl₀⟩ := hl.newTable hw hnew
  obtain ⟨tb, m, h, hl₁⟩ := h₀.setAll_ledger hl₀ hx
  obtain ⟨-, rfl, hpos, hsize, hkeys⟩ := h.of_luaPairs hpairs
  have hat : Traversal.At ⟨w₂, st, .nil⟩ t 0 tb m := ⟨h, hl₁, hpos, trivial⟩
  -- at the start every name of the snapshot is a block of the map
  have hheld : Traversal.Held ⟨w₂, st, .nil⟩ 0 m := by
    intro j rec _ hrec a sl hkey
    obtain ⟨n, hn, rfl⟩ := hkeys rec (List.mem_of_getElem? hrec)
    exact List.mem_flatMap.mpr ⟨n, hn, Node.mem_blocks_record hkey⟩
  constructor
  · rintro ⟨hcalls, -⟩
    obtain ⟨hcare, hle⟩ := hat.careful hheld rfl hlen (Nat.zero_le _) hsucc hcalls
    refine ⟨?_, hcare⟩
    have hint := (asInt_bounds st.keys.length).2
    -- a snapshot of a map that yields something has not wrapped
    by_cases h0 : 0 < st.keys.length
    · have hle : (st.keys.length : Int) ≤ st.mapSize := hle h0
      omega
    · omega
  · rintro ⟨hsmall, hcare⟩
    rw [asInt_of_small (by omega) (by omega)] at hsize
    obtain ⟨hcalls, hyields⟩ := hat.valid hheld rfl hsize hlen (Nat.zero_le _) hsucc hcare
    exact ⟨hcalls, hyields⟩

/-- Two keys; the body overwrites one of them and adds a third. -/
def smallRounds : List Round :=
  [⟨[], .blank⟩, ⟨[⟨.string [97], .number 7, .blank⟩, ⟨.string [99], .number 8, .blank⟩], .blank⟩,
    ⟨[], .blank⟩]

/-- The theorem at a traversal with assignments between its calls. -/
theorem traversal_valid_iff_small :
    ∃ t w₀ w₁ w₂ rs st, World.empty.newTable = some (t, w₀)
      ∧ w₀.setAll t (byteCalls [97, 98]) = some (rs, w₁) ∧ w₁.luaPairs t = some (st, w₂)
      ∧ smallRounds.length = st.keys.length + 1
      ∧ Traversal.Succeeds t ⟨w₂, st, .nil⟩ smallRounds
      ∧ (Traversal.Valid t ⟨w₂, st, .nil⟩ smallRounds
        ↔ st.keys.length < 2147483648
          ∧ Run.Along (Traversal.round t) (Traversal.Careful t) ⟨w₂, st, .nil⟩ smallRounds) := by
  have hall : (World.empty.newTable.bind fun p =>
      (p.2.setAll p.1 (byteCalls [97, 98])).bind fun q =>
        (q.2.luaPairs p.1).map fun x =>
          (x.1.keys.length, decide (Traversal.Succeeds p.1 ⟨x.2, x.1, .nil⟩ smallRounds)))
      = some (2, true) := by decide +kernel
  obtain ⟨⟨t, w₀⟩, hnew, hall⟩ := Option.bind_eq_some_iff.mp hall
  obtain ⟨⟨rs, w₁⟩, hrun, hall⟩ := Option.bind_eq_some_iff.mp hall
  obtain ⟨⟨st, w₂⟩, hpairs, hall⟩ := Option.map_eq_some_iff.mp hall
  simp only [Prod.mk.injEq, decide_eq_true_eq] at hall
  obtain ⟨hkeys, hsucc⟩ := hall
  have hlen : smallRounds.length = st.keys.length + 1 := by
    rw [hkeys]
    rfl
  exact ⟨t, w₀, w₁, w₂, rs, st, hnew, hrun, hpairs, hlen, hsucc,
    traversal_valid_iff World.empty_tidy World.empty_ledger hnew hrun hpairs hlen hsucc⟩

/-- Eight rounds over the seven keys of one chain; after the first call the
body adds an eighth key to it. -/
def growingRounds : List Round :=
  [⟨[], .blank⟩, ⟨[⟨.string [167], .number 1, .blank⟩], .blank⟩]
    ++ List.replicate 6 ⟨[], .blank⟩

/-- The eighth key makes the map grow, and the second call reads the key string
of a node that was freed. -/
theorem traversal_reads_freed :
    ∃ t w₀ w₁ w₂ rs st, World.empty.newTable = some (t, w₀)
      ∧ w₀.setAll t (byteCalls [229, 231, 37, 39, 101, 103, 165]) = some (rs, w₁)
      ∧ w₁.luaPairs t = some (st, w₂) ∧ growingRounds.length = st.keys.length + 1
      ∧ Traversal.Succeeds t ⟨w₂, st, .nil⟩ growingRounds
      ∧ ¬ Traversal.Valid t ⟨w₂, st, .nil⟩ growingRounds := by
  have hall : (World.empty.newTable.bind fun p =>
      (p.2.setAll p.1 (byteCalls [229, 231, 37, 39, 101, 103, 165])).bind fun q =>
        (q.2.luaPairs p.1).bind fun x =>
          (Traversal.round p.1 ⟨x.2, x.1, .nil⟩ ⟨[], .blank⟩).bind fun y =>
            (y.2.w.assignAll p.1 [⟨.string [167], .number 1, .blank⟩]).bind fun z =>
              y.2.st.next.bind fun rec => rec.key.map fun k =>
                ((x.1.keys.length, decide (Traversal.Succeeds p.1 ⟨x.2, x.1, .nil⟩ growingRounds)),
                  decide (k.1 ∈ z.2.freed)))
      = some ((7, true), true) := by decide +kernel
  obtain ⟨⟨t, w₀⟩, hnew, hall⟩ := Option.bind_eq_some_iff.mp hall
  obtain ⟨⟨rs, w₁⟩, hrun, hall⟩ := Option.bind_eq_some_iff.mp hall
  obtain ⟨⟨st, w₂⟩, hpairs, hall⟩ := Option.bind_eq_some_iff.mp hall
  obtain ⟨⟨o, s⟩, hround, hall⟩ := Option.bind_eq_some_iff.mp hall
  obtain ⟨⟨os, w'⟩, hbody, hall⟩ := Option.bind_eq_some_iff.mp hall
  obtain ⟨rec, hnext, hall⟩ := Option.bind_eq_some_iff.mp hall
  obtain ⟨⟨a, sl⟩, hkey, hall⟩ := Option.map_eq_some_iff.mp hall
  simp only [Prod.mk.injEq, decide_eq_true_eq] at hall
  obtain ⟨⟨hkeys, hsucc⟩, hfreed⟩ := hall
  refine ⟨t, w₀, w₁, w₂, rs, st, hnew, hrun, hpairs, by rw [hkeys]; rfl, hsucc, ?_⟩
  intro hvalid
  -- the call of the second round
  have hcall := (hvalid.calls.2 o s hround).1
  exact (hcall.some hnext hbody).1 a sl hkey hfreed

end LightTable
