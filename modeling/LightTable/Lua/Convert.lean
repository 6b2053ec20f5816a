/-
  LightTable.Lua.Convert
  ──────────────────────
  Conversion of a Lua table is faithful.

  `Mirrors` says that a light table shows the entries of a Lua table, and the
  nested tables at every level.  A conversion only writes to tables and strings
  that it makes itself (`World.Beyond`), so what the loop has converted stays
  while it goes on; a round puts one entry (`World.Rep.put_new`), a loop all of
  them (`convertEntries_mirrors`), and the calls nest by the rule of `Lib.Fuel`
  (`doConvert_faithful`).
-/
import LightTable.Lua.Recursion
import LightTable.Lua.Index

namespace LightTable

open Fuel Relation

/-! ## §1. Keys. -/

/-- The key of a light table that a Lua key stands for: a short string, or an
integer in [0, 2^31). -/
inductive LuaValue.IsKey : LuaValue → Key → Prop where
  | string (s : Bytes) (h : s.length < 2147483648) : IsKey (.string s) (.str s)
  | number (i : Nat) (h : i < 2147483648) : IsKey (.number (Binary64.ofNat i)) (.num (UInt64.ofNat i))
  | negativeZero : IsKey (.number 9223372036854775808) (.num 0)

variable {k k' v : LuaValue} {key key' : Key}

theorem LuaValue.IsKey.getKey (h : k.IsKey key) : LightTable.getKey k = some (.ok key) := by
  cases h with
  | string s h => rfl
  | number i h => exact getKey_int (by omega)
  | negativeZero => decide

theorem LuaValue.IsKey.unique (h : k.IsKey key) (h' : k.IsKey key') : key = key' := by
  have heq := h.getKey
  rw [h'.getKey, Option.some.injEq, Outcome.ok.injEq] at heq
  exact heq.symm

theorem toNat_ofNat_small {i : Nat} (h : i < 2147483648) : (UInt64.ofNat i).toNat = i := by
  rw [UInt64.toNat_ofNat']
  omega

theorem LuaValue.IsKey.short (h : k.IsKey key) : key.Short := by
  cases h with
  | string s h => exact h
  | number i h =>
      show (UInt64.ofNat i).toNat < _
      rw [toNat_ofNat_small h]
      exact h
  | negativeZero => decide

/-- The double of an integer in range is finite. -/
theorem exponent_ofNat {i : Nat} (h : i < 2147483648) : Binary64.exponent (Binary64.ofNat i) ≠ 2047 := by
  by_cases h0 : i = 0
  · rw [h0]
    decide
  · have hlog : i.log2 < 31 := (Nat.log2_lt h0).mpr h
    rw [(Binary64.ofNat_fields h0 (by omega)).1]
    omega

theorem rawequal_number {n n' : Word} (hn : Binary64.exponent n ≠ 2047)
    (h : n = n' ∨ (isZero n = true ∧ isZero n' = true)) : rawequal (.number n) (.number n') = true := by
  unfold rawequal
  rw [Bool.and_eq_true, Bool.or_eq_true, decide_eq_true_eq, decide_eq_true_eq, Bool.and_eq_true]
  exact ⟨Or.inl hn, h⟩

/-- Lua keys that stand for one key are equal in Lua. -/
theorem LuaValue.IsKey.rawequal (h : k.IsKey key) (h' : k'.IsKey key) :
    LightTable.rawequal k k' = true := by
  cases h with
  | string s h =>
      cases h' with
      | string s' h' => exact decide_eq_true rfl
  | number i h =>
      generalize hkey : Key.num (UInt64.ofNat i) = key at h'
      cases h' with
      | string s' h' => cases hkey
      | number j hj =>
          -- two integers with one key are one integer
          have hij := congrArg UInt64.toNat (Key.num.inj hkey)
          rw [toNat_ofNat_small h, toNat_ofNat_small hj] at hij
          rw [hij]
          exact rawequal_number (exponent_ofNat hj) (Or.inl rfl)
      | negativeZero =>
          -- negative zero shares its key with zero only
          have hi := congrArg UInt64.toNat (Key.num.inj hkey)
          rw [toNat_ofNat_small h] at hi
          rw [show i = 0 from hi]
          decide
  | negativeZero =>
      generalize hkey : Key.num 0 = key at h'
      cases h' with
      | string s' h' => cases hkey
      | number j hj =>
          have hi := congrArg UInt64.toNat (Key.num.inj hkey)
          rw [toNat_ofNat_small hj] at hi
          rw [show j = 0 from hi.symm]
          decide
      | negativeZero => decide

/-! ## §2. What a faithful conversion shows. -/

/-- The light table `t` shows the entries of a Lua table: under each key the
value, and for a nested table a light table that shows that table's entries and
nothing else.  `nodes` lists the light tables below `t`. -/
inductive Mirrors (heap : LuaHeap) (shows : Addr → Key → Option Arg → Prop) :
    Addr → List (LuaValue × LuaValue) → List Addr → Prop where
  | nil (t : Addr) : Mirrors heap shows t [] []
  | scalar {t : Addr} {k v : LuaValue} {key : Key} {a : Arg} {rest : List (LuaValue × LuaValue)}
      {nodes : List Addr} (hk : k.IsKey key) (hv : v.arg = some a) (hshow : shows t key (some a))
      (hrest : Mirrors heap shows t rest nodes) : Mirrors heap shows t ((k, v) :: rest) nodes
  | table {t sub id : Addr} {k : LuaValue} {key : Key} {es rest : List (LuaValue × LuaValue)}
      {below nodes : List Addr} (hk : k.IsKey key) (hshow : shows t key (some (.ud sub)))
      (hes : heap id = some es) (hsub : Mirrors heap shows sub es below)
      (hother : ∀ key, (∀ e ∈ es, ¬ e.1.IsKey key) → shows sub key none)
      (hrest : Mirrors heap shows t rest nodes) :
      Mirrors heap shows t ((k, .table id) :: rest) (sub :: below ++ nodes)

/-- `t` is a conversion of the Lua table `id`: it shows its entries and has
`LT_NIL` under every other key. -/
def IsConversion (heap : LuaHeap) (shows : Addr → Key → Option Arg → Prop) (t id : Addr)
    (nodes : List Addr) : Prop :=
  ∃ es, heap id = some es ∧ Mirrors heap shows t es nodes
    ∧ ∀ key, (∀ e ∈ es, ¬ e.1.IsKey key) → shows t key none

variable {heap : LuaHeap} {t id : Addr} {es rest : List (LuaValue × LuaValue)} {nodes : List Addr}

/-- What the tables of the tree show may be replaced. -/
theorem Mirrors.imp {P Q : Addr → Key → Option Arg → Prop} (h : Mirrors heap P t es nodes)
    (hPQ : ∀ a, a = t ∨ a ∈ nodes → ∀ key o, P a key o → Q a key o) : Mirrors heap Q t es nodes := by
  induction h with
  | nil t => exact .nil t
  | scalar hk hv hshow hrest ih => exact .scalar hk hv (hPQ _ (Or.inl rfl) _ _ hshow) (ih hPQ)
  | @table t sub id k key es rest below nodes hk hshow hes hsub hother hrest ihsub ihrest =>
      refine .table hk (hPQ _ (Or.inl rfl) _ _ hshow) hes (ihsub ?_) ?_ (ihrest ?_)
      · intro a ha
        refine hPQ a (Or.inr (List.mem_append_left _ ?_))
        exact List.mem_cons.mpr ha
      · intro key hkey
        exact hPQ sub (Or.inr (List.mem_append_left _ List.mem_cons_self)) _ _ (hother key hkey)
      · intro a ha
        exact hPQ a (ha.imp_right (List.mem_append_right _))

/-! ## §3. What a conversion leaves alone. -/

variable {w w' w'' : World} {s : Store} {tb : Table} {m : LMap} {tmp : Value}

/-- Of the tables that were there only `t` may have changed, and no string. -/
structure World.Beyond (t : Addr) (w w' : World) : Prop extends World.Leaves t w w' where
  lstrings : ∀ a, a < w.brk → w'.lstrings a = w.lstrings a
  slots : ∀ a, a < w.brk → w'.slots a = w.slots a

theorem World.Beyond.refl (t : Addr) (w : World) : World.Beyond t w w where
  toLeaves := World.Leaves.refl t w
  lstrings := fun _ _ => rfl
  slots := fun _ _ => rfl

theorem World.Beyond.trans (h₁ : World.Beyond t w w') (h₂ : World.Beyond t w' w'') :
    World.Beyond t w w'' where
  toLeaves := h₁.toLeaves.trans h₂.toLeaves
  lstrings := fun a ha =>
    (h₂.lstrings a (Nat.lt_of_lt_of_le ha h₁.brk)).trans (h₁.lstrings a ha)
  slots := fun a ha => (h₂.slots a (Nat.lt_of_lt_of_le ha h₁.brk)).trans (h₁.slots a ha)

/-- A table other than `t` represents what it did. -/
theorem World.Rep.beyond (h : w.Rep t s tb m) {a : Addr} (hb : World.Beyond a w w') (ht : t < w.brk)
    (hne : t ≠ a) : w'.Rep t s tb m := by
  -- the same world with the old tables represents the store by the strings alone
  have hother : ({ w' with tables := w.tables } : World).Rep t s tb m :=
    h.congr rfl hb.brk hb.lstrings hb.slots
  have htable : w'.tables t = some tb := (hb.tables t ht hne).trans h.toOwns.table
  exact { hother with
    table := htable
    map := h.toOwns.map
    ref := h.toOwns.ref
    below := Nat.lt_of_lt_of_le h.toOwns.below hb.brk }

theorem World.Rep.sound (h : w.Rep t s tb m) (hw : w.Tidy) : w.Sound t tb m :=
  ⟨h.toOwns, h.inv.toWf, hw⟩

/-- A call on an absent key swaps no string. -/
theorem World.Sound.set_beyond (h : w.Sound t tb m) {c : SetCall} (hf : m.find c.key = none) {r : Int}
    (hx : w.set t c = some (r, w')) : World.Beyond t w w' := by
  refine ⟨h.set_leaves hx, ?_, ?_⟩
  all_goals
    intro a ha
    cases h.set_case hx with
    | refused hc n hn hty hw => rw [hf] at hn; cases hn
    | swapped str harg n hn hty hup => rw [hf] at hn; cases hn
    | insertedString str harg hn type hins =>
        obtain ⟨-, hframe, -⟩ :=
          (h.withString str).insertTable (show LType.string ≠ .nil by decide) hins
        first
        | rw [hframe.lstrings]; exact Function.update_of_ne (Nat.ne_of_lt ha) ..
        | rw [hframe.slots]; exact Function.update_of_ne (Nat.ne_of_lt (Nat.lt_succ_of_lt ha)) ..
    | insertedPlain hty type hins =>
        obtain ⟨-, hframe, -⟩ := h.insertTable c.arg.type_ne_nil hins
        first
        | rw [hframe.lstrings]
        | rw [hframe.slots]

/-- A setter call on an absent key puts its value and leaves the rest alone. -/
theorem World.Rep.put_new (h : w.Rep t s tb m) (hw : w.Tidy) {c : SetCall} (hk : c.key.Fits)
    (habs : s c.key = none) (hb : w.bucketsAsked t c < 2147483648) :
    ∃ w' tb' m', w.set t c = some (0, w') ∧ w'.Rep t (s.put c.key c.arg) tb' m' ∧ w'.Tidy
      ∧ World.Beyond t w w' := by
  have hacc : s.Accepts c := by
    intro a ha
    rw [habs] at ha
    cases ha
  obtain ⟨w', tb', m', hset, hrep, -⟩ := h.set hk hacc hb
  have hs := h.sound hw
  have hf : m.find c.key = none := Option.map_eq_none_iff.mp (h.absent c.key habs)
  obtain ⟨tb₁, m₁, hs₁⟩ := hs.set hset
  exact ⟨w', tb', m', hset, hrep, hs₁.tidy, hs.set_beyond hf hset⟩

/-! ## §4. One loop. -/

/-- The table at `t` represents a store with `o` under the key. -/
def World.Has (w : World) (t : Addr) (key : Key) (o : Option Arg) : Prop :=
  ∃ s tb m, w.Rep t s tb m ∧ s key = o

theorem World.Has.readsAs {o : Option Arg} (h : w.Has t key o) : w.ReadsAs t key o := by
  obtain ⟨s, tb, m, hrep, rfl⟩ := h
  exact hrep.readsAs key

theorem World.Has.beyond {a : Addr} {o : Option Arg} (h : w.Has t key o) (hb : World.Beyond a w w')
    (ht : t < w.brk) (hne : t ≠ a) : w'.Has t key o := by
  obtain ⟨s, tb, m, hrep, hs⟩ := h
  exact ⟨s, tb, m, hrep.beyond hb ht hne, hs⟩

/-- A tree away from `a` shows what it did. -/
theorem Mirrors.beyond {a : Addr} (h : Mirrors heap w.Has t es nodes) (hb : World.Beyond a w w')
    (hin : ∀ x, x = t ∨ x ∈ nodes → x < w.brk ∧ x ≠ a) : Mirrors heap w'.Has t es nodes :=
  h.imp (fun x hx _ _ hhas => hhas.beyond hb (hin x hx).1 (hin x hx).2)

/-- What the loop of the table `t` has done to the entries `rest`, from the
store `s`. -/
structure Filled (heap : LuaHeap) (t : Addr) (rest : List (LuaValue × LuaValue)) (w : World)
    (s : Store) (w' : World) (nodes : List Addr) : Prop where
  there : ∃ s' tb m, w'.Rep t s' tb m ∧ ∀ key, (∀ e ∈ rest, ¬ e.1.IsKey key) → s' key = s key
  tidy : w'.Tidy
  beyond : World.Beyond t w w'
  mirrors : Mirrors heap w'.Has t rest nodes
  fresh : ∀ a ∈ nodes, w.brk ≤ a ∧ a < w'.brk
  nodup : nodes.Nodup

/-- The value put first is still there when the loop ends. -/
theorem Filled.has {a : Arg} (h : Filled heap t rest w (s.put key a) w' nodes)
    (hkey : ∀ e ∈ rest, ¬ e.1.IsKey key) : w'.Has t key (some a) := by
  obtain ⟨s', tb', m', hrep, hs'⟩ := h.there
  refine ⟨s', tb', m', hrep, ?_⟩
  rw [hs' key hkey]
  exact Store.put_self s key a

/-- The keys of the other entries keep what they had. -/
theorem Filled.others {a : Arg} (h : Filled heap t rest w (s.put key a) w' nodes) (hk : k.IsKey key) :
    ∃ s' tb m, w'.Rep t s' tb m
      ∧ ∀ key', (∀ e ∈ (k, v) :: rest, ¬ e.1.IsKey key') → s' key' = s key' := by
  obtain ⟨s', tb', m', hrep, hs'⟩ := h.there
  refine ⟨s', tb', m', hrep, ?_⟩
  intro key' hkey'
  rw [hs' key' (fun e he => hkey' e (List.mem_cons_of_mem _ he))]
  apply Store.put_ne s
  intro heq
  subst heq
  exact hkey' (k, v) List.mem_cons_self hk

theorem Filled.scalar {a : Arg} {w₁ : World} (h : Filled heap t rest w₁ (s.put key a) w' nodes)
    (hk : k.IsKey key) (hv : v.arg = some a) (hkey : ∀ e ∈ rest, ¬ e.1.IsKey key)
    (hb : World.Beyond t w w₁) : Filled heap t ((k, v) :: rest) w s w' nodes where
  there := h.others hk
  tidy := h.tidy
  beyond := hb.trans h.beyond
  mirrors := .scalar hk hv (h.has hkey) h.mirrors
  fresh := fun x hx => ⟨Nat.le_trans hb.brk (h.fresh x hx).1, (h.fresh x hx).2⟩
  nodup := h.nodup

/-- What a call on the Lua table `id` has done. -/
structure Converted (heap : LuaHeap) (id : Addr) (w : World) (root : Addr) (w' : World)
    (nodes : List Addr) : Prop where
  conversion : IsConversion heap w'.Has root id nodes
  tidy : w'.Tidy
  beyond : World.Beyond w.brk w w'
  fresh : ∀ a ∈ root :: nodes, w.brk ≤ a ∧ a < w'.brk
  nodup : (root :: nodes).Nodup

/-- The tree of a nested call hangs below the table, apart from the trees that
the loop makes after it. -/
theorem Filled.table {w₁ w₂ : World} {root : Addr} {below : List Addr}
    (h : Filled heap t rest w₂ (s.put key (.ud root)) w' nodes) (hk : k.IsKey key)
    (hkey : ∀ e ∈ rest, ¬ e.1.IsKey key) (hc : Converted heap id w root w₁ below)
    (ht : t < w.brk) (hb₁ : World.Beyond t w w₁) (hb₂ : World.Beyond t w₁ w₂) :
    Filled heap t ((k, .table id) :: rest) w s w' (root :: below ++ nodes) := by
  have hb : World.Beyond t w₁ w' := hb₂.trans h.beyond
  have haway : ∀ x, x = root ∨ x ∈ below → x < w₁.brk ∧ x ≠ t := by
    intro x hx
    have hx := hc.fresh x (List.mem_cons.mpr hx)
    exact ⟨hx.2, Nat.ne_of_gt (Nat.lt_of_lt_of_le ht hx.1)⟩
  obtain ⟨es', hes', hmirrors, hother⟩ := hc.conversion
  refine ⟨h.others hk, h.tidy, hb₁.trans hb, ?_, ?_, ?_⟩
  · refine .table hk (h.has hkey) hes' (hmirrors.beyond hb haway) ?_ h.mirrors
    intro key' hkey'
    obtain ⟨hlt, hne⟩ := haway root (Or.inl rfl)
    exact (hother key' hkey').beyond hb hlt hne
  · intro x hx
    rcases List.mem_append.mp hx with hx | hx
    · obtain ⟨hlo, hhi⟩ := hc.fresh x hx
      exact ⟨hlo, Nat.lt_of_lt_of_le hhi hb.brk⟩
    · obtain ⟨hlo, hhi⟩ := h.fresh x hx
      exact ⟨Nat.le_trans (Nat.le_trans hb₁.brk hb₂.brk) hlo, hhi⟩
  · refine List.nodup_append.mpr ⟨hc.nodup, h.nodup, ?_⟩
    intro x hx y hy hxy
    have hlt := Nat.lt_of_lt_of_le (hc.fresh x hx).2 (Nat.le_trans hb₂.brk (h.fresh y hy).1)
    rw [hxy] at hlt
    exact Nat.lt_irrefl y hlt

/-- The argument of the setter for a value; which pointer it is does not matter
for the bucket count. -/
def LuaValue.stored : LuaValue → Option Arg
  | .table _ => some (.ud 0)
  | v => v.arg

/-- The key that `_get_key` gives. -/
def okKey (k : LuaValue) : Option Key :=
  match getKey k with
  | some (.ok key) => some key
  | _ => none

/-- The setter call of the round keeps the bucket count below 2^31. -/
def World.BucketsFit (tmp : Value) (_ : Nat) (w : World) (t : Addr) (e : LuaValue × LuaValue) : Prop :=
  ∀ key ∈ okKey e.1, ∀ arg ∈ e.2.stored, w.bucketsAsked t ⟨key, arg, tmp⟩ < 2147483648

instance (tmp : Value) (d : Nat) (w : World) (t : Addr) (e : LuaValue × LuaValue) :
    Decidable (w.BucketsFit tmp d t e) :=
  inferInstanceAs (Decidable (∀ key ∈ okKey e.1, ∀ arg ∈ e.2.stored, _ < _))

theorem LuaValue.IsKey.okKey (h : k.IsKey key) : LightTable.okKey k = some key := by
  unfold LightTable.okKey
  rw [h.getKey]

/-- A nested call leaves the bucket count of the table that it is for. -/
theorem World.BucketsFit.ud {id' : Addr} {d : Nat} (h : w.BucketsFit tmp d t (k, .table id'))
    (hk : LightTable.okKey k = some key) (hcur : w'.current t = w.current t) (sub : Addr) :
    w'.bucketsAsked t ⟨key, .ud sub, tmp⟩ < 2147483648 := by
  have hfit := h key hk (.ud 0) rfl
  unfold World.bucketsAsked at hfit ⊢
  rw [hcur]
  exact hfit

/-- A key and a value that conversion supports. -/
def ConvertibleEntry (e : LuaValue × LuaValue) : Prop :=
  (∃ key, e.1.IsKey key) ∧ (e.2.arg ≠ none ∨ ∃ id, e.2 = .table id)

/-- A key that no other entry stands for. -/
theorem not_isKey_of_pairwise (hk : k.IsKey key)
    (hdistinct : ((k, v) :: rest).Pairwise (fun e e' => rawequal e.1 e'.1 = false)) :
    ∀ e ∈ rest, ¬ e.1.IsKey key := by
  intro e he hkey
  have hne := (List.pairwise_cons.mp hdistinct).1 e he
  rw [hk.rawequal hkey] at hne
  cases hne

/-- What a loop needs of the entries that are to come: they are supported,
their keys differ, and the store has none of them. -/
structure Pending (s : Store) (rest : List (LuaValue × LuaValue)) : Prop where
  entries : ∀ e ∈ rest, ConvertibleEntry e
  distinct : rest.Pairwise (fun e e' => rawequal e.1 e'.1 = false)
  absent : ∀ e ∈ rest, ∀ key, e.1.IsKey key → s key = none

theorem Pending.tail (h : Pending s ((k, v) :: rest)) (hk : k.IsKey key) (a : Arg) :
    Pending (s.put key a) rest where
  entries := fun e he => h.entries e (List.mem_cons_of_mem _ he)
  distinct := (List.pairwise_cons.mp h.distinct).2
  absent := by
    intro e he key' hkey'
    have hne : key' ≠ key := by
      intro heq
      subst heq
      exact not_isKey_of_pairwise hk h.distinct e he hkey'
    rw [Store.put_ne s hne]
    exact h.absent e (List.mem_cons_of_mem _ he) key' hkey'

/-- The condition holds of every round on a key that the table does not have. -/
def OfNewKeys (G : Nat → World → Addr → LuaValue × LuaValue → Prop) : Prop :=
  ∀ (d : Nat) (w : World) (t : Addr) (s : Store) (tb : Table) (m : LMap) (k v : LuaValue) (key : Key),
    w.Rep t s tb m → w.Tidy → k.IsKey key → s key = none → G d w t (k, v)

theorem ofNewKeys_true : OfNewKeys (fun _ _ _ _ => True) := fun _ _ _ _ _ _ _ _ _ _ _ _ _ => trivial

variable {subL : Addr → World → Option (Outcome Addr × World)} {subAlong subG : Addr → World → Prop}
  {G : Nat → World → Addr → LuaValue × LuaValue → Prop} {d : Nat}

/-- The loop fills the table with the entries to come, when the nested calls
convert their tables; it meets no key twice. -/
theorem convertEntries_mirrors (hG : OfNewKeys G) (hes : heap id = some es)
    (hsub : ∀ id', heap.Holds id id' → ∀ w, w.Tidy → subAlong id' w →
      (∃ root w' nodes, subL id' w = some (.ok root, w') ∧ Converted heap id' w root w' nodes)
        ∧ subG id' w)
    (rest : List (LuaValue × LuaValue)) :
    ∀ (w : World) (s : Store) (tb : Table) (m : LMap), rest <:+ es → Pending s rest → w.Rep t s tb m →
      w.Tidy → t < w.brk → EntriesAlong tmp (World.BucketsFit tmp) subL subAlong d t rest w →
      (∃ w' nodes, convertEntries tmp subL t rest w = some (.ok (), w')
        ∧ Filled heap t rest w s w' nodes) ∧ EntriesAlong tmp G subL subG d t rest w := by
  induction rest with
  | nil =>
      intro w s tb m _ _ hrep hw _ _
      refine ⟨⟨w, [], rfl, ?_⟩, trivial⟩
      exact {
        there := ⟨s, tb, m, hrep, fun _ _ => rfl⟩
        tidy := hw
        beyond := World.Beyond.refl t w
        mirrors := .nil t
        fresh := by simp
        nodup := List.nodup_nil }
  | cons e rest ih =>
      intro w s tb m hsuffix hpending hrep hw ht halong
      obtain ⟨k, v⟩ := e
      have hrest : rest <:+ es := (List.suffix_cons _ rest).trans hsuffix
      obtain ⟨⟨key, hk⟩, hv⟩ := hpending.entries (k, v) List.mem_cons_self
      have hkey := not_isKey_of_pairwise hk hpending.distinct
      have habs := hpending.absent (k, v) List.mem_cons_self key hk
      have hround := hG d w t s tb m k v key hrep hw hk habs
      have hgk := hk.getKey
      have hfits := hk.short.fits
      rcases hv with hv | ⟨id', hv⟩
      · -- one call of a setter
        obtain ⟨a, ha⟩ := Option.ne_none_iff_exists'.mp hv
        have hnot := LuaValue.not_table_of_arg ha
        have hstored : v.stored = some a := by
          cases v with
          | table id' => exact absurd rfl (hnot id')
          | _ => exact ha
        have hbuckets := halong.1 key hk.okKey a hstored
        obtain ⟨w₁, tb₁, m₁, hset, hrep₁, hw₁, hb₁⟩ :=
          hrep.put_new (c := ⟨key, a, tmp⟩) hw hfits habs hbuckets
        have hsetv : w.setValue t key v tmp = some (.ok (), w₁) := by
          rw [World.setValue_arg ha, hset]
          rfl
        have hrestAlong := ((entriesAlong_scalar hgk hnot hsetv).mp halong).2
        obtain ⟨⟨w', nodes, hloop, hfilled⟩, hrestG⟩ := ih w₁ _ tb₁ m₁ hrest (hpending.tail hk a)
          hrep₁ hw₁ (Nat.lt_of_lt_of_le ht hb₁.brk) hrestAlong
        refine ⟨⟨w', nodes, ?_, hfilled.scalar hk ha hkey hb₁⟩,
          (entriesAlong_scalar hgk hnot hsetv).mpr ⟨hround, hrestG⟩⟩
        rw [convertEntries_scalar hgk hnot, hsetv]
        exact hloop
      · -- a nested call, and `set_ud` of the table that it made
        have hv : v = .table id' := hv
        subst hv
        have hholds : heap.Holds id id' := ⟨es, k, hes, hsuffix.subset List.mem_cons_self⟩
        obtain ⟨⟨root, w₁, below, hcall, hconv⟩, hsubG⟩ := hsub id' hholds w hw
          (halong.2.1 id' (nestedTable_table hgk))
        have hne : t ≠ w.brk := Nat.ne_of_lt ht
        have hrep₁ := hrep.beyond hconv.beyond ht hne
        have ht₁ : t < w₁.brk := Nat.lt_of_lt_of_le ht hconv.beyond.brk
        have hb₁ : World.Beyond t w w₁ :=
          { hconv.beyond with tables := fun a ha _ => hconv.beyond.tables a ha (Nat.ne_of_lt ha) }
        have hbuckets : w₁.bucketsAsked t ⟨key, .ud root, tmp⟩ < 2147483648 :=
          halong.1.ud hk.okKey (hrep₁.toOwns.current.trans hrep.toOwns.current.symm) root
        obtain ⟨w₂, tb₂, m₂, hset, hrep₂, hw₂, hb₂⟩ :=
          hrep₁.put_new (c := ⟨key, .ud root, tmp⟩) hconv.tidy hfits habs hbuckets
        have hset : w₁.setUd t key tmp root = some (0, w₂) := hset
        have hrestAlong := ((entriesAlong_table hgk hcall hset).mp halong).2.2
        obtain ⟨⟨w', nodes, hloop, hfilled⟩, hrestG⟩ := ih w₂ _ tb₂ m₂ hrest
          (hpending.tail hk (.ud root)) hrep₂ hw₂ (Nat.lt_of_lt_of_le ht₁ hb₂.brk) hrestAlong
        refine ⟨⟨w', root :: below ++ nodes, ?_, hfilled.table hk hkey hconv ht hb₁ hb₂⟩,
          (entriesAlong_table hgk hcall hset).mpr ⟨hround, hsubG, hrestG⟩⟩
        rw [convertEntries_table hgk, hcall, Option.bind_some]
        simp only [hset, Option.bind_some]
        exact hloop

/-! ## §5. The recursion. -/

/-- A call converts its table when the calls on the tables in it do. -/
theorem doConvert_converts {n : Nat} (hG : OfNewKeys G) (hlawful : heap.Lawful) (hes : heap id = some es)
    (hentries : ∀ e ∈ es, ConvertibleEntry e)
    (hsub : ∀ id', heap.Holds id id' → ∀ w, w.Tidy →
      ConvertAlong tmp heap (World.BucketsFit tmp) n (d + 1) id' w →
      (∃ root w' nodes, doConvert tmp heap n id' w = some (.ok root, w')
        ∧ Converted heap id' w root w' nodes) ∧ ConvertAlong tmp heap G n (d + 1) id' w)
    (hw : w.Tidy) (halong : ConvertAlong tmp heap (World.BucketsFit tmp) (n + 1) d id w) :
    (∃ root w' nodes, doConvert tmp heap (n + 1) id w = some (.ok root, w')
      ∧ Converted heap id w root w' nodes) ∧ ConvertAlong tmp heap G (n + 1) d id w := by
  obtain ⟨w₀, -, hnew, -, -, hbrk, hls, hsl, hother⟩ := w.newTable_spec
  obtain ⟨tb, hrep₀⟩ := World.Rep.newTable hnew
  obtain ⟨-, hl₀, hlt, tb₀, hs₀⟩ := World.newTable_leaves hw hnew
  have hb₀ : World.Beyond w.brk w w₀ :=
    { hl₀ with lstrings := fun a _ => by rw [hls], slots := fun a _ => by rw [hsl] }
  -- at the start nothing is stored and everything is to come
  have hpending : Pending Store.empty es :=
    { entries := hentries
      distinct := (hlawful id es hes).2
      absent := fun _ _ _ _ => rfl }
  have hloop : EntriesAlong tmp (World.BucketsFit tmp) (doConvert tmp heap n)
      (ConvertAlong tmp heap (World.BucketsFit tmp) n (d + 1)) d w.brk es w₀ :=
    halong es hes (w.brk, w₀) hnew
  obtain ⟨⟨w', nodes, hrun, hfilled⟩, hloopG⟩ := convertEntries_mirrors hG hes hsub es w₀ Store.empty
    tb _ (List.suffix_refl es) hpending hrep₀ hs₀.tidy hlt hloop
  refine ⟨⟨w.brk, w', nodes, ?_, ?_⟩, ?_⟩
  · rw [doConvert_succ hes hnew, hrun]
    rfl
  · -- the tables below are younger than the root
    have hfresh : ∀ a ∈ nodes, w.brk < a :=
      fun a ha => Nat.lt_of_lt_of_le hlt (hfilled.fresh a ha).1
    obtain ⟨s', tb', m', hrep', hs'⟩ := hfilled.there
    refine ⟨⟨es, hes, hfilled.mirrors, ?_⟩, hfilled.tidy, hb₀.trans hfilled.beyond, ?_, ?_⟩
    · intro key hkey
      exact ⟨s', tb', m', hrep', hs' key hkey⟩
    · intro a ha
      rcases List.mem_cons.mp ha with rfl | ha
      · exact ⟨Nat.le_refl _, Nat.lt_of_lt_of_le hlt hfilled.beyond.brk⟩
      · exact ⟨Nat.le_of_lt (hfresh a ha), (hfilled.fresh a ha).2⟩
    · refine List.nodup_cons.mpr ⟨?_, hfilled.nodup⟩
      intro hmem
      exact Nat.lt_irrefl _ (hfresh _ hmem)
  · intro es' hes' x hx
    rw [hes] at hes'
    cases hes'
    rw [hnew] at hx
    cases hx
    exact hloopG

/-- A Lua table that can be converted: finitely many tables are reached from
it, none that contains itself, and all with supported keys and values. -/
structure LuaHeap.Convertible (heap : LuaHeap) (id : Addr) (L : Finset Addr) : Prop where
  finite : ∀ b, ReflTransGen heap.Holds id b → b ∈ L
  acyclic : ∀ b, ReflTransGen heap.Holds id b → ¬ TransGen heap.Holds b b
  tables : ∀ b, ReflTransGen heap.Holds id b → ∃ es, heap b = some es ∧ ∀ e ∈ es, ConvertibleEntry e

/-- A call of `do_convert` on a table that can be converted.  It meets no key
twice. -/
theorem doConvert_converted {L : Finset Addr} (hG : OfNewKeys G) (hlawful : heap.Lawful)
    (hc : heap.Convertible id L) (hw : w.Tidy)
    (halong : ConvertAlong tmp heap (World.BucketsFit tmp) L.card d id w) :
    (∃ root w' nodes, doConvert tmp heap L.card id w = some (.ok root, w')
      ∧ Converted heap id w root w' nodes) ∧ ConvertAlong tmp heap G L.card d id w := by
  -- by the depth of the tables below, which are finite and without a cycle
  have hall : ReflTransGen heap.Holds id id → ∀ d w, w.Tidy →
      ConvertAlong tmp heap (World.BucketsFit tmp) L.card d id w →
      (∃ root w' nodes, doConvert tmp heap L.card id w = some (.ok root, w')
        ∧ Converted heap id w root w' nodes) ∧ ConvertAlong tmp heap G L.card d id w := by
    refine ends_of_acyclic (G := heap.Holds) (P := fun n a => ReflTransGen heap.Holds id a → ∀ d w,
      w.Tidy → ConvertAlong tmp heap (World.BucketsFit tmp) n d a w →
      (∃ root w' nodes, doConvert tmp heap n a w = some (.ok root, w')
        ∧ Converted heap a w root w' nodes) ∧ ConvertAlong tmp heap G n d a w) ?_ L.card id L
      (Nat.le_refl _) hc.finite hc.acyclic
    intro n a hsub ha d w hw halong
    obtain ⟨es, hes, hentries⟩ := hc.tables a ha
    exact doConvert_converts hG hlawful hes hentries
      (fun id' hid' w hw h => hsub id' hid' (ha.tail hid') (d + 1) w hw h) hw halong
  exact hall .refl d w hw halong

/-- `do_convert` raises no error, gives the stack back as it was, and returns
the root of a tree of new light tables, each used once, that shows the Lua
table at every level. -/
theorem doConvert_faithful {L : Finset Addr} (hlawful : heap.Lawful) (hc : heap.Convertible id L)
    (hw : w.Tidy) (halong : ConvertAlong tmp heap (World.BucketsFit tmp) L.card 0 id w)
    (below : List LuaValue) (p : Nat) :
    ∃ root st w' nodes,
      LuaStack.doConvert tmp heap L.card ⟨.table id :: below, p⟩ w = .ok (.ok root, st, w')
        ∧ st.values = .table id :: below ∧ IsConversion heap w'.ReadsAs root id nodes
        ∧ (root :: nodes).Nodup := by
  obtain ⟨⟨root, w', nodes, hrun, hconv⟩, -⟩ := doConvert_converted ofNewKeys_true hlawful hc hw halong
  -- the stack program gives what the function on values gives
  obtain ⟨hends, hvals⟩ := LuaStack.doConvert_refines hlawful tmp L.card id below p w
  rw [hrun] at hends
  obtain ⟨⟨o, st, w₁⟩, hx, ho⟩ := Option.map_eq_some_iff.mp hends
  cases ho
  have hx := Result.toOption_eq_some.mp hx
  refine ⟨root, st, w₁, nodes, hx, hvals root st w₁ hx, ?_, hconv.nodup⟩
  obtain ⟨es, hes, hmirrors, hother⟩ := hconv.conversion
  exact ⟨es, hes, hmirrors.imp (fun _ _ _ _ h => h.readsAs), fun key hkey => (hother key hkey).readsAs⟩

theorem sharedHeap_convertible : sharedHeap.Convertible 1 {1, 2} where
  finite := fun _ h => sharedHeap_finite h
  acyclic := fun b _ => sharedHeap_acyclic b
  tables := by
    intro b hb
    have hb := sharedHeap_finite hb
    rcases Finset.mem_insert.mp hb with rfl | hb
    · refine ⟨_, rfl, ?_⟩
      intro e he
      simp only [List.mem_cons, List.not_mem_nil, or_false] at he
      rcases he with rfl | rfl
      · exact ⟨⟨_, .string _ (by decide)⟩, Or.inr ⟨2, rfl⟩⟩
      · exact ⟨⟨_, .string _ (by decide)⟩, Or.inr ⟨2, rfl⟩⟩
    · rw [Finset.mem_singleton.mp hb]
      refine ⟨_, rfl, ?_⟩
      intro e he
      rw [List.mem_singleton.mp he]
      exact ⟨⟨_, .string _ (by decide)⟩, Or.inl (by simp [LuaValue.arg])⟩

/-- The Lua table under two keys becomes two light tables. -/
theorem doConvert_faithful_shared :
    ∃ root st w' nodes,
      LuaStack.doConvert .blank sharedHeap ({1, 2} : Finset Addr).card ⟨[.table 1], 1⟩ .empty
          = .ok (.ok root, st, w')
        ∧ st.values = [.table 1] ∧ IsConversion sharedHeap w'.ReadsAs root 1 nodes
        ∧ (root :: nodes).Nodup :=
  doConvert_faithful sharedHeap_lawful sharedHeap_convertible World.empty_tidy (by decide +kernel) [] 1

end LightTable
