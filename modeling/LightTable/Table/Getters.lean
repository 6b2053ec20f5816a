/-
  LightTable.Table.Getters
  ────────────────────────
  What a getter's answer depends on.

  A search that finds its key copies the whole value into the getter's local
  `tmp`; a search that does not writes the type only.  `get_string` looks at
  the type before it reads the union, the other getters return the union as
  it is.  So an answer is fixed by the table exactly when the key is there or
  the getter is `get_string` (`getters_agree_iff`).
-/
import LightTable.Table.Effects
import LightTable.Table.FailedSet
import LightTable.Table.Enumerate

namespace LightTable

variable {w w' : World} {t t' : Addr} {tb : Table} {m : LMap}

/-! ## §1. Worlds at rest. -/

/-- Every slot is one that `new_string` made and that nobody holds beside its
lstring. -/
def World.Unshared (w : World) : Prop :=
  ∀ a sl, w.slots a = some sl → ∃ str, sl = LightTable.newString str

/-- No call is under way. -/
structure World.Idle (w : World) : Prop where
  tidy : w.Tidy
  unshared : w.Unshared

theorem World.empty_idle : World.empty.Idle where
  tidy := World.empty_tidy
  unshared := fun a sl h => absurd h (by simp [World.empty])

/-- A slot that nobody else holds goes away when its string is replaced. -/
theorem World.Idle.updateString (h : w.Idle) {p : Word} {str : Bytes}
    (hx : w.updateString p str = some w') : w'.Unshared := by
  obtain ⟨slot, sl, hls, hsl⟩ := h.tidy.of_updateString hx
  obtain ⟨old, hold⟩ := h.unshared slot sl hsl
  have href : sl.ref = 1 := by rw [hold]; rfl
  obtain ⟨w₁, heq, -, -, -, hslots, -⟩ :=
    World.updateString_spec hls hsl href (h.tidy p slot hls) str
  rw [hx, Option.some.injEq] at heq
  subst heq
  intro a sl' ha
  rw [hslots, Function.update_apply] at ha
  -- the old slot is gone, the new one is fresh, the others stay
  by_cases hslot : a = slot
  · rw [if_pos hslot] at ha
    exact absurd ha (by simp)
  · rw [if_neg hslot, Function.update_apply] at ha
    by_cases hbrk : a = w.brk
    · rw [if_pos hbrk, Option.some.injEq] at ha
      exact ⟨str, ha.symm⟩
    · rw [if_neg hbrk] at ha
      exact h.unshared a sl' ha

theorem World.Idle.withString (h : w.Idle) (str : Bytes) : (w.withString str).Unshared := by
  intro a sl ha
  have hslots : (w.withString str).slots
      = Function.update w.slots (w.brk + 1) (some (LightTable.newString str)) := rfl
  rw [hslots, Function.update_apply] at ha
  by_cases hab : a = w.brk + 1
  · rw [if_pos hab, Option.some.injEq] at ha
    exact ⟨str, ha.symm⟩
  · rw [if_neg hab] at ha
    exact h.unshared a sl ha

/-- A setter call leaves the process at rest. -/
theorem World.Idle.set (hi : w.Idle) (h : w.Sound t tb m) {c : SetCall} {r : Int}
    (hx : w.set t c = some (r, w')) : w'.Idle ∧ ∃ tb' m', w'.Sound t tb' m' := by
  obtain ⟨tb', m', h'⟩ := h.set hx
  refine ⟨⟨h'.tidy, ?_⟩, tb', m', h'⟩
  cases h.set_case hx with
  | refused hc n hn hty hw =>
    rw [hw]
    exact hi.unshared
  | swapped str harg n hn hty hup => exact hi.updateString hup
  | insertedString str harg hn type hins =>
    obtain ⟨-, hframe, -⟩ :=
      (h.withString str).insertTable (show LType.string ≠ .nil by decide) hins
    intro a sl ha
    rw [hframe.slots] at ha
    exact hi.withString str a sl ha
  | insertedPlain hty type hins =>
    obtain ⟨-, hframe, -⟩ := h.insertTable c.arg.type_ne_nil hins
    intro a sl ha
    rw [hframe.slots] at ha
    exact hi.unshared a sl ha

/-- The table at `t` was created by a process at rest, and setter calls on it,
of any kinds, led to `w`. -/
def World.Reached (w : World) (t : Addr) : Prop :=
  ∃ (w₀ w₁ : World) (calls : List SetCall) (rs : List Int), w₀.Idle
    ∧ w₀.newTable = some (t, w₁) ∧ w₁.setAll t calls = some (rs, w)

theorem World.Idle.newTable (hi : w.Idle) (hx : w.newTable = some (t, w')) : w'.Idle := by
  obtain ⟨tb, hs⟩ := World.Sound.newTable hi.tidy hx
  obtain ⟨-, -, -, hslots, -⟩ := World.of_newTable hx
  refine ⟨hs.tidy, ?_⟩
  intro a sl ha
  rw [hslots] at ha
  exact hi.unshared a sl ha

theorem World.Reached.sound (h : w.Reached t) : w.Idle ∧ ∃ tb m, w.Sound t tb m := by
  obtain ⟨w₀, w₁, calls, rs, hi, hnew, hx⟩ := h
  obtain ⟨tb, hs⟩ := World.Sound.newTable hi.tidy hnew
  -- the invariant of the run: at rest, with a sound table
  refine Run.run_inv (fun w c => World.set w t c)
    (I := fun w => w.Idle ∧ ∃ tb m, World.Sound w t tb m) ?_
    ⟨hi.newTable hnew, tb, _, hs⟩ hx
  intro w c r w' ⟨hidle, tb, m, hsound⟩ hset
  exact hidle.set hsound hset

/-! ## §2. The getters' answers. -/

/-- The four getters. -/
inductive Getter where
  | number
  | boolean
  | ud
  | string
  deriving DecidableEq

/-- What a getter returns; for a `char *` that is the memory it points to. -/
def World.answer (w : World) (t : Addr) (g : Getter) (key : Key) (tmp : Value) : Option Reading :=
  match g with
  | .number => (w.getNumber t key tmp).map (fun r => .number r.1)
  | .boolean => (w.getBoolean t key tmp).map (fun r => .boolean r.1)
  | .ud => (w.getUd t key tmp).map (fun r => .ud r.1)
  | .string => (w.getString t key tmp).map (fun r => .string (r.2.atPtr r.1))

/-- The key is absent, or holds a value of the getter's type. -/
def Getter.Accepts (g : Getter) : Reading → Prop
  | .nil => True
  | .number _ => g = .number
  | .boolean _ => g = .boolean
  | .ud _ => g = .ud
  | .string buf => g = .string ∧ buf.isSome

/-- The getter gives one answer in both worlds, whatever its locals held. -/
def SameAnswer (w : World) (t : Addr) (w' : World) (t' : Addr) (g : Getter) (key : Key) : Prop :=
  ∃ a, ∀ tmp tmp', w.answer t g key tmp = some a ∧ w'.answer t' g key tmp' = some a

/-- A value of the getter's type is the answer. -/
theorem World.Idle.answer_found (hi : w.Idle) (h : w.Sound t tb m) {g : Getter} {key : Key}
    {r : Reading} (hr : w.readBack t key = some r) (hg : g.Accepts r) (hne : r ≠ .nil)
    (tmp : Value) : w.answer t g key tmp = some r := by
  rw [h.readBack, Option.some.injEq] at hr
  cases hf : m.find key with
  | none =>
    rw [hf] at hr
    exact absurd hr.symm hne
  | some n =>
    rw [hf] at hr
    have hview : m.view key = some (n.v.type, n.v.v) := by
      unfold LMap.view
      rw [hf]
      rfl
    have hr : w.shows n.v.type n.v.v = r := hr
    unfold World.shows at hr
    cases hty : n.v.type with
    | nil =>
      rw [hty] at hr
      exact absurd hr.symm hne
    | number =>
      rw [hty] at hr hview
      subst hr
      have hg : g = .number := hg
      subst hg
      show (w.getNumber t key tmp).map _ = _
      unfold World.getNumber
      rw [h.toOwns.getPlain h.wf hview]
      rfl
    | boolean =>
      rw [hty] at hr hview
      subst hr
      have hg : g = .boolean := hg
      subst hg
      show (w.getBoolean t key tmp).map _ = _
      unfold World.getBoolean
      rw [h.toOwns.getPlain h.wf hview]
      rfl
    | ud =>
      rw [hty] at hr hview
      subst hr
      have hg : g = .ud := hg
      subst hg
      show (w.getUd t key tmp).map _ = _
      unfold World.getUd
      rw [h.toOwns.getPlain h.wf hview]
      rfl
    | string =>
      rw [hty] at hr
      subst hr
      obtain ⟨hg, hsome⟩ : g = .string ∧ _ := hg
      subst hg
      -- the lstring leads to a slot that nobody holds
      obtain ⟨buf, hbuf⟩ := Option.isSome_iff_exists.mp hsome
      obtain ⟨⟨slot⟩, hls, hbuf'⟩ := Option.bind_eq_some_iff.mp hbuf
      obtain ⟨sl, hsl, -⟩ := Option.map_eq_some_iff.mp hbuf'
      obtain ⟨str, hstr⟩ := hi.unshared slot sl hsl
      obtain ⟨w₁, hgrab, -, hrel⟩ := World.grab_release hls hsl (by rw [hstr]; rfl)
      have hget : w.getString t key tmp = some (.buf slot, w) := by
        unfold World.getString
        rw [h.toOwns.searchTable h.wf, LMap.result_found hf]
        simp [hty, hgrab, hrel]
      show (w.getString t key tmp).map _ = _
      rw [hget, hls]
      rfl

/-- For an absent key three getters hand out what their local held. -/
theorem World.Sound.answer_absent (h : w.Sound t tb m) {key : Key}
    (hr : w.readBack t key = some .nil) (g : Getter) (tmp : Value) :
    w.answer t g key tmp = some (match g with
      | .number => .number tmp.v
      | .boolean => .boolean (Word.b tmp.v)
      | .ud => .ud tmp.v
      | .string => .string (some [0])) := by
  -- a key that reads as nil has no node, since a node has a type
  have hf : m.find key = none := by
    rw [h.readBack, Option.some.injEq] at hr
    cases hf : m.find key with
    | none => rfl
    | some n =>
      rw [hf] at hr
      have hne := h.wf.type n (LMap.find_mem hf).1
      have hr : w.shows n.v.type n.v.v = .nil := hr
      unfold World.shows at hr
      cases hty : n.v.type with
      | nil => exact absurd hty hne
      | number => rw [hty] at hr; exact nomatch hr
      | boolean => rw [hty] at hr; exact nomatch hr
      | ud => rw [hty] at hr; exact nomatch hr
      | string => rw [hty] at hr; exact nomatch hr
  -- the search sets the type of the local, and nothing else in it
  have hsearch : w.searchTable t key tmp = some ({ tmp with type := .nil }, w) := by
    rw [h.toOwns.searchTable h.wf, LMap.result_absent hf]
  cases g with
  | number =>
    show (w.getPlain t key tmp .number).map _ = _
    unfold World.getPlain
    rw [hsearch]
    rfl
  | boolean =>
    show ((w.getPlain t key tmp .boolean).bind _).map _ = _
    unfold World.getPlain
    rw [hsearch]
    rfl
  | ud =>
    show (w.getPlain t key tmp .ud).map _ = _
    unfold World.getPlain
    rw [hsearch]
    rfl
  | string =>
    show (w.getString t key tmp).map _ = _
    unfold World.getString
    rw [hsearch]
    rfl

/-! ## §3. Two runs. -/

/-- What a key of a store reads as. -/
def Store.reading (s : Store) (key : Key) : Reading :=
  match s key with
  | none => .nil
  | some (.number n) => .number n
  | some (.boolean b) => .boolean b
  | some (.ud u) => .ud u
  | some (.string str) => .string (some (str ++ [0]))

/-- Tables that represent one store read the same. -/
theorem World.Rep.readBack {s : Store} (h : w.Rep t s tb m) (key : Key) :
    w.readBack t key = some (s.reading key) := by
  unfold World.readBack Store.reading
  rw [h.toOwns.getType h.inv.toWf]
  cases hs : s key with
  | none =>
    rw [h.absent key hs]
    rfl
  | some a =>
    obtain ⟨v, hv, hst⟩ := h.view_some hs
    rw [hv]
    show some (w.shows a.type v) = _
    cases a with
    | number n =>
      have hvn : v = n := congrArg Prod.snd hst
      rw [hvn]
      rfl
    | boolean b =>
      have hvb : Word.b v = b := hst.2
      show some (Reading.boolean (Word.b v)) = _
      rw [hvb]
    | ud u =>
      have hvu : v = u := congrArg Prod.snd hst
      rw [hvu]
      rfl
    | string str =>
      -- a string is read through its lstring and its slot
      obtain ⟨-, slot, hls, hsl⟩ := hst
      have hls : w.lstrings v = some ⟨slot⟩ := hls
      show some (Reading.string ((w.lstrings v).bind _)) = _
      rw [hls, Option.bind_some, hsl]
      rfl

/-- Two tables that read the same give the same answers exactly when the key
is there or the getter is `get_string`. -/
theorem getters_agree_iff (h : w.Reached t) (h' : w'.Reached t')
    (hsame : ∀ key, w.readBack t key = w'.readBack t' key) (g : Getter) (key : Key) (r : Reading)
    (hr : w.readBack t key = some r) (hg : g.Accepts r) :
    SameAnswer w t w' t' g key ↔ r ≠ .nil ∨ g = .string := by
  obtain ⟨hi, tb, m, hs⟩ := h.sound
  obtain ⟨hi', tb', m', hs'⟩ := h'.sound
  have hr' : w'.readBack t' key = some r := (hsame key).symm.trans hr
  by_cases hnil : r = .nil
  · subst hnil
    constructor
    · intro ⟨a, ha⟩
      refine Or.inr ?_
      -- two locals with different words show the difference
      have h0 := (ha ⟨0, .nil, 0⟩ .blank).1
      have h1 := (ha ⟨0, .nil, 1⟩ .blank).1
      rw [hs.answer_absent hr] at h0 h1
      have heq := h0.trans h1.symm
      cases g with
      | number => exact absurd heq (by decide)
      | boolean => exact absurd heq (by decide)
      | ud => exact absurd heq (by decide)
      | string => rfl
    · intro hor
      obtain rfl : g = .string := hor.resolve_left (fun hne => hne rfl)
      refine ⟨.string (some [0]), ?_⟩
      intro tmp tmp'
      exact ⟨hs.answer_absent hr .string tmp, hs'.answer_absent hr' .string tmp'⟩
  · constructor
    · intro _
      exact Or.inl hnil
    · intro _
      refine ⟨r, ?_⟩
      intro tmp tmp'
      exact ⟨hi.answer_found hs hr hg hnil tmp, hi'.answer_found hs' hr' hg hnil tmp'⟩

/-- A call of `set_number` on one key of a fresh table. -/
def numberCalls (ns : List Word) : List SetCall := ns.map (fun n => ⟨.num 1, .number n, .blank⟩)

/-- A fresh table after such calls. -/
theorem numberCalls_reached (ns : List Word) {rs : List Int}
    (hall : (World.empty.newTable.bind fun p => (p.2.setAll p.1 (numberCalls ns)).map Prod.fst)
      = some rs) (hzero : ∀ r ∈ rs, r = 0) :
    ∃ (t : Addr) (w : World), w.Reached t
      ∧ ∀ key, w.readBack t key = some (Store.reading (lastSet (numberCalls ns)) key) := by
  obtain ⟨⟨t, w₀⟩, hnew, hall⟩ := Option.bind_eq_some_iff.mp hall
  obtain ⟨⟨rs', w⟩, hrun, hrs⟩ := Option.map_eq_some_iff.mp hall
  have hrs : rs' = rs := hrs
  subst hrs
  have hfits : ∀ c ∈ numberCalls ns, c.key.Fits := by
    intro c hc
    obtain ⟨n, -, rfl⟩ := List.mem_map.mp hc
    show (Key.num 1).Fits
    decide
  obtain ⟨tb₀, hrep₀⟩ := World.Rep.newTable hnew
  obtain ⟨tb, m, hrep⟩ := hrep₀.of_setAll_zero _ hfits hrun hzero
  exact ⟨t, w, ⟨World.empty, w₀, _, rs', World.empty_idle, hnew, hrun⟩, hrep.readBack⟩

/-- One run sets a number once, the other twice. -/
theorem getters_agree_iff_number :
    ∃ (t t' : Addr) (w w' : World), w.readBack t (.num 1) = some (.number 5)
      ∧ (SameAnswer w t w' t' .number (.num 1) ↔ Reading.number 5 ≠ .nil ∨ Getter.number = .string) := by
  obtain ⟨t, w, h, hread⟩ := numberCalls_reached [5] (show _ = some [0] by decide) (by decide)
  obtain ⟨t', w', h', hread'⟩ := numberCalls_reached [4, 5] (show _ = some [0, 0] by decide)
    (by decide)
  have hlast : lastSet (numberCalls [5]) = lastSet (numberCalls [4, 5]) := by
    have hone : lastSet (numberCalls [5]) = Store.empty.put (.num 1) (.number 5) :=
      lastSet_snoc [] ⟨.num 1, .number 5, .blank⟩
    have htwo : lastSet (numberCalls [4, 5])
        = Store.put (lastSet (numberCalls [4])) (.num 1) (.number 5) :=
      lastSet_snoc (numberCalls [4]) ⟨.num 1, .number 5, .blank⟩
    have hfirst : lastSet (numberCalls [4]) = Store.empty.put (.num 1) (.number 4) :=
      lastSet_snoc [] ⟨.num 1, .number 4, .blank⟩
    rw [hone, htwo, hfirst]
    unfold Store.put
    rw [Function.update_idem]
  refine ⟨t, t', w, w', hread (.num 1), ?_⟩
  refine getters_agree_iff h h' ?_ .number (.num 1) _ (hread (.num 1)) rfl
  intro key
  rw [hread, hread', hlast]

/-- `get_number` of an absent key gives what its local held. -/
theorem getNumber_absent_differs :
    ∃ (t : Addr) (w : World), w.Reached t ∧ w.readBack t (.num 1) = some .nil
      ∧ Getter.number.Accepts .nil ∧ ¬ SameAnswer w t w t .number (.num 1) := by
  obtain ⟨t, w, h, hread⟩ := numberCalls_reached [] (show _ = some [] by decide) (by decide)
  obtain ⟨hi, tb, m, hs⟩ := h.sound
  refine ⟨t, w, h, hread (.num 1), trivial, ?_⟩
  intro ⟨a, ha⟩
  have h0 := (ha ⟨0, .nil, 0⟩ .blank).1
  have h1 := (ha ⟨0, .nil, 1⟩ .blank).1
  rw [hs.answer_absent (hread (.num 1))] at h0 h1
  exact absurd (h0.trans h1.symm) (by decide)

end LightTable
