/-
  LightTable.Table.Buffers
  ────────────────────────
  The two buffers of the serializer: the 1000 bytes of `temp`, and the
  `BUF_SIZE` bytes of `serialed`.

  `_add_string_to_buff` checks its bound before each byte, but writes no NUL,
  and `sprintf` into `temp` checks nothing.  So `serialize` stays inside both
  exactly when every key and every string fits `temp` with what is printed
  around it, and the whole text leaves room for a NUL
  (`serialize_inside_iff`).
-/
import LightTable.Table.Contents
import LightTable.Table.Ownership
import LightTable.Table.Reserialize
import Mathlib.Data.Nat.Digits.Defs

namespace LightTable

open Fuel Relation

/-! ## §1. How long a number is. -/

theorem plain_append {a b : Bytes} (ha : (0 : UInt8) ∉ a) (hb : (0 : UInt8) ∉ b) :
    (0 : UInt8) ∉ a ++ b := by
  intro h
  rcases List.mem_append.mp h with h | h
  · exact ha h
  · exact hb h

theorem digits_length {n e : Nat} (he : 0 < e) (h : n < 10 ^ e) : (digits n).length ≤ e := by
  unfold digits
  rw [List.length_map]
  exact Nat.toDigits_length 10 n e he h

theorem digits_plain (n : Nat) : (0 : UInt8) ∉ digits n := by
  intro h
  obtain ⟨c, hc, h0⟩ := List.mem_map.mp h
  have hdigit := Nat.isDigit_of_mem_toDigits (by decide) (by decide) hc
  -- the codes of the digits are 48 to 57
  have hbounds : 48 ≤ c.toNat ∧ c.toNat ≤ 57 := by
    unfold Char.isDigit at hdigit
    rw [Bool.and_eq_true, decide_eq_true_eq, decide_eq_true_eq] at hdigit
    exact hdigit
  have h0 := congrArg UInt8.toNat h0
  rw [UInt8.toNat_ofNat'] at h0
  have h0 : c.toNat % 256 = 0 := h0
  omega

theorem decimal_length (x : Int) : (decimal (asInt x)).length ≤ 11 := by
  have hb := asInt_bounds x
  have hlen : (digits (asInt x).natAbs).length ≤ 10 :=
    digits_length (by decide) (show (asInt x).natAbs < 10 ^ 10 by omega)
  unfold decimal
  split
  · rw [List.length_cons]
    omega
  · omega

theorem decimal_plain (x : Int) : (0 : UInt8) ∉ decimal x := by
  unfold decimal
  split
  · intro h
    rcases List.mem_cons.mp h with h | h
    · exact absurd h (by decide)
    · exact digits_plain _ h
  · exact digits_plain _

/-- The digits of a finite double: 53 bits, times a million, shifted by 971. -/
theorem millionths_lt {n : Word} (h : Binary64.exponent n ≠ 2047) :
    Binary64.millionths n < 10 ^ 348 := by
  have hexp : Binary64.exponent n < 2048 := Nat.mod_lt _ (by decide)
  have hfrac : Binary64.fraction n < Binary64.unit := Nat.mod_lt _ (by decide)
  have hsig : Binary64.significand n < 2 ^ 53 := by
    show _ < 9007199254740992
    unfold Binary64.significand
    unfold Binary64.unit at *
    split <;> omega
  have hscaled : Binary64.significand n * 1000000 + 1 ≤ 2 ^ 73 := by
    have hpow : (2 : Nat) ^ 73 = 2 ^ 53 * 2 ^ 20 := Nat.pow_add 2 53 20
    show _ ≤ 9444732965739290427392
    have hsig : Binary64.significand n < 9007199254740992 := hsig
    omega
  -- the exponent stays a variable, so that no power is computed
  obtain ⟨k, hk⟩ : ∃ k, k = 348 := ⟨348, rfl⟩
  rw [← hk]
  have hlt : Binary64.millionths n < 2 ^ (3 * k) := by
    unfold Binary64.millionths
    split
    · rw [Nat.shiftLeft_eq]
      calc Binary64.significand n * 1000000 * 2 ^ (Binary64.exponent n - 1075)
          < 2 ^ 73 * 2 ^ (Binary64.exponent n - 1075) :=
            Nat.mul_lt_mul_of_pos_right hscaled (Nat.pow_pos (by decide))
        _ = 2 ^ (73 + (Binary64.exponent n - 1075)) := (Nat.pow_add 2 73 _).symm
        _ ≤ 2 ^ (3 * k) := Nat.pow_le_pow_right (by decide) (by omega)
    · -- a shift to the right, rounded up at most once
      have hround : Binary64.roundShift (Binary64.significand n * 1000000)
          (1075 - max (Binary64.exponent n) 1) ≤ Binary64.significand n * 1000000 + 1 := by
        have hle : (Binary64.significand n * 1000000) >>> (1075 - max (Binary64.exponent n) 1)
            ≤ Binary64.significand n * 1000000 := by
          rw [Nat.shiftRight_eq_div_pow]
          exact Nat.div_le_self _ _
        unfold Binary64.roundShift
        dsimp only
        split
        · exact Nat.succ_le_succ hle
        · exact Nat.le_succ_of_le hle
      exact Nat.lt_of_le_of_lt (Nat.le_trans hround hscaled)
        (Nat.pow_lt_pow_right (by decide) (by omega))
  calc Binary64.millionths n < 2 ^ (3 * k) := hlt
    _ = 8 ^ k := Nat.pow_mul 2 3 k
    _ ≤ 10 ^ k := Nat.pow_le_pow_left (by decide) k

/-- A number never fills `temp`. -/
theorem lf_length (n : Word) : (lf n).length < 1000 := by
  unfold lf
  rw [List.length_append]
  have hsign : (if Binary64.negative n then [45] else ([] : Bytes)).length ≤ 1 := by
    split <;> decide
  by_cases hexp : Binary64.exponent n = 2047
  · rw [if_pos hexp]
    have hname : (if Binary64.fraction n = 0 then [105, 110, 102] else ([110, 97, 110] : Bytes)).length
        = 3 := by
      split <;> rfl
    omega
  · rw [if_neg hexp]
    have hint : (digits (Binary64.millionths n / 1000000)).length ≤ 348 :=
      digits_length (by decide) (Nat.lt_of_le_of_lt (Nat.div_le_self _ _) (millionths_lt hexp))
    have hfrac : (digits (1000000 + Binary64.millionths n % 1000000)).length ≤ 7 := by
      refine digits_length (by decide) ?_
      have := Nat.mod_lt (Binary64.millionths n) (show 0 < 1000000 by decide)
      show _ < 10000000
      omega
    dsimp only
    rw [List.length_append, List.length_cons, List.length_drop]
    omega

theorem lf_plain (n : Word) : (0 : UInt8) ∉ lf n := by
  have hsign : (0 : UInt8) ∉ (if Binary64.negative n then [45] else ([] : Bytes)) := by
    split <;> decide
  unfold lf
  refine plain_append hsign ?_
  by_cases hexp : Binary64.exponent n = 2047
  · rw [if_pos hexp]
    split <;> decide
  · rw [if_neg hexp]
    refine plain_append (digits_plain _) ?_
    intro h
    rcases List.mem_cons.mp h with h | h
    · exact absurd h (by decide)
    · exact digits_plain _ (List.mem_of_mem_drop h)

/-! ## §2. One record. -/

variable {w : World} {t u : Addr} {d : Nat} {r : TableKey} {records : List TableKey} {key : Key}
  {cs : Contents} {tmp : Value}

theorem sprintfTemp_some {text : Bytes} (h : text.length < 1000) : sprintfTemp text = some text :=
  if_pos h

theorem sprintfTemp_none {text : Bytes} (h : ¬ text.length < 1000) : sprintfTemp text = none :=
  if_neg h

/-- What is printed around a key takes 7 bytes, and the NUL one. -/
theorem Key.fitsTemp_iff (key : Key) : key.FitsTemp ↔ key.printed.length < 1000 := by
  cases key with
  | str name =>
    show (cBytes name).length ≤ 992 ↔ ([91, 34] ++ cBytes name ++ [34, 93, 32, 61, 32]).length < 1000
    simp only [List.length_append, List.length_cons, List.length_nil]
    omega
  | num idx =>
    have hlen := decimal_length (idx.toNat : Int)
    show True ↔ ([91, 34] ++ decimal (asInt idx.toNat) ++ [34, 93, 61]).length < 1000
    simp only [List.length_append, List.length_cons, List.length_nil]
    constructor
    · intro _
      omega
    · intro _
      trivial

theorem Key.printed_plain (key : Key) : (0 : UInt8) ∉ key.printed := by
  cases key with
  | str name => exact plain_append (plain_append (by decide) (cBytes_plain name)) (by decide)
  | num idx => exact plain_append (plain_append (by decide) (decimal_plain _)) (by decide)

/-- The getter that the `switch` picks, and what is formatted then. -/
theorem World.valueText_content (tmp : Value) {a : Arg} {value : Content} (hkey : r.toKey = some key)
    (htype : r.type = a.type) (hvalue : a.content = some value)
    (hread : w.ReadsAs t key (some a)) :
    ∃ piece, value.pieces = [piece] ∧ w.valueText t r tmp = some (w, piece)
      ∧ (value.Fits ↔ piece.length < 1000) ∧ (0 : UInt8) ∉ piece := by
  have hget := (hread tmp).2
  cases a with
  | ud v => exact absurd hvalue (by simp [Arg.content])
  | number n =>
    cases hvalue
    have htype : r.type = .number := htype
    have hget : w.getNumber t key tmp = some (n, w) := hget
    refine ⟨lf n, rfl, ?_, ?_, lf_plain n⟩
    · unfold World.valueText
      rw [htype, hkey]
      show (w.getNumber t key tmp).bind _ = _
      rw [hget]
      rfl
    · show True ↔ _
      exact iff_of_true trivial (lf_length n)
  | boolean b =>
    cases hvalue
    have htype : r.type = .boolean := htype
    have hget : w.getBoolean t key tmp = some (b, w) := hget
    refine ⟨_, rfl, ?_, ?_, ?_⟩
    · unfold World.valueText
      rw [htype, hkey]
      show (w.getBoolean t key tmp).bind _ = _
      rw [hget]
      rfl
    · show True ↔ _
      by_cases hb : b ≠ 0 <;> simp [hb]
    · by_cases hb : b ≠ 0 <;> simp [hb]
  | string str =>
    cases hvalue
    have htype : r.type = .string := htype
    obtain ⟨p, hget, hbytes⟩ := hget
    -- the two quotes take two of the thousand bytes
    have hplain := cBytes_plain str
    refine ⟨[34] ++ cBytes str ++ [34], rfl, ?_, ?_, by simp [hplain]⟩
    · unfold World.valueText
      rw [htype, hkey]
      show (w.getString t key tmp).bind _ = _
      rw [hget, Option.bind_some]
      show (w.atPtr p).bind _ = _
      rw [hbytes, Option.bind_some]
      show (cRead (str ++ [0])).bind _ = _
      rw [cRead_terminated]
      rfl
    · show (cBytes str).length ≤ 997 ↔ ([34] ++ cBytes str ++ [34]).length < 1000
      simp only [List.length_append, List.length_cons, List.length_nil]
      omega

variable {sub : Addr → World × List Bytes → Result (World × List Bytes)}

/-- The record of an entry that is no table. -/
theorem World.recordPieces_plain (tmp : Value)
    (sub : Addr → World × List Bytes → Result (World × List Bytes)) {a : Arg} {value : Content}
    (hname : r.Names key)
    (htype : r.type = a.type) (hvalue : a.content = some value) (hread : w.ReadsAs t key (some a))
    (ps : List Bytes) :
    (key.FitsTemp ∧ value.Fits ∧ World.recordPieces tmp sub t (w, ps) r
        = .ok (w, ps ++ ([key.printed] ++ value.pieces ++ [[44, 10]])))
      ∨ (¬ (key.FitsTemp ∧ value.Fits) ∧ World.recordPieces tmp sub t (w, ps) r = .stuck) := by
  obtain ⟨piece, hpieces, htext, hfits, -⟩ :=
    World.valueText_content tmp hname.toKey htype hvalue hread
  -- a value with a content is no table
  have hud : r.type ≠ .ud := by
    intro hud
    rw [htype] at hud
    cases a with
    | ud v => exact absurd hvalue (by simp [Arg.content])
    | number n => cases hud
    | boolean b => cases hud
    | string str => cases hud
  unfold World.recordPieces TableKey.head
  rw [hname.text, Option.bind_some, key.fitsTemp_iff, hfits, hpieces]
  -- the key goes through the buffer first, then the value
  by_cases hkey : key.printed.length < 1000
  · rw [sprintfTemp_some hkey]
    show (_ ∧ _ ∧ (if r.type = .ud then _ else _) = _) ∨ (_ ∧ (if r.type = .ud then _ else _) = _)
    rw [if_neg hud, htext]
    by_cases hpiece : piece.length < 1000
    · refine Or.inl ⟨hkey, hpiece, ?_⟩
      show (Result.ofOption (sprintfTemp piece)).bind _ = _
      rw [sprintfTemp_some hpiece]
      rfl
    · refine Or.inr ⟨fun h => hpiece h.2, ?_⟩
      show (Result.ofOption (sprintfTemp piece)).bind _ = _
      rw [sprintfTemp_none hpiece]
      rfl
  · rw [sprintfTemp_none hkey]
    exact Or.inr ⟨fun h => hkey h.1, rfl⟩

/-- The record of a nested table. -/
theorem World.recordPieces_nested (tmp : Value)
    (sub : Addr → World × List Bytes → Result (World × List Bytes)) (hname : r.Names key) (htype : r.type = .ud)
    (hread : w.ReadsAs t key (some (.ud u))) (ps : List Bytes) :
    (key.FitsTemp ∧ World.recordPieces tmp sub t (w, ps) r
        = (sub u (w, ps ++ [key.printed])).bind (fun y => .ok (y.1, y.2 ++ [[44, 10]])))
      ∨ (¬ key.FitsTemp ∧ World.recordPieces tmp sub t (w, ps) r = .stuck) := by
  have hget : w.getUd t key tmp = some (u, w) := (hread tmp).2
  unfold World.recordPieces TableKey.head
  rw [hname.text, Option.bind_some, key.fitsTemp_iff]
  by_cases hkey : key.printed.length < 1000
  · rw [sprintfTemp_some hkey]
    refine Or.inl ⟨hkey, ?_⟩
    show (if r.type = .ud then _ else _) = _
    rw [if_pos htype]
    unfold World.subTable
    rw [hname.toKey, Option.bind_some, hget]
    rfl
  · rw [sprintfTemp_none hkey]
    exact Or.inr ⟨hkey, rfl⟩

/-! ## §3. A whole tree. -/

/-- What is formatted for a table, braces included. -/
def Contents.tablePieces (cs : Contents) : List Bytes := [[123]] ++ cs.pieces ++ [[125]]

theorem Contents.flatten_tablePieces (cs : Contents) : cs.tablePieces.flatten = cs.text := by
  unfold Contents.tablePieces Contents.text Contents.body
  simp

theorem Contents.body_cons (key : Key) (value : Content) (rest : Contents) :
    (Contents.cons key value rest).body
      = key.printed ++ value.pieces.flatten ++ [44, 10] ++ rest.body := by
  show ([key.printed] ++ value.pieces ++ [[44, 10]] ++ rest.pieces).flatten = _
  unfold Contents.body
  simp

/-- An entry takes at least its separator. -/
theorem Contents.length_le_body : ∀ cs : Contents, cs.length ≤ cs.body.length
  | .nil => Nat.le_refl 0
  | .cons key value rest => by
      have hrest := Contents.length_le_body rest
      rw [Contents.body_cons, List.length_append, List.length_append]
      show rest.length + 1 ≤ _ + 2 + _
      omega

theorem Contents.length_text (cs : Contents) : cs.text.length = cs.body.length + 2 := by
  unfold Contents.text
  rw [List.length_append, List.length_append]
  show 1 + cs.body.length + 1 = _
  omega

/-- The loop over the records of a tree. -/
theorem World.HoldsEntries.pieces_ok
    (hsub : ∀ u cs ps y, w.HoldsTable d u cs → sub u (w, ps) = .ok y →
      cs.Fits ∧ y = (w, ps ++ cs.tablePieces)) :
    ∀ {cs : Contents} {ps : List Bytes} {y : World × List Bytes}, w.HoldsEntries d t records cs →
      Result.fold (World.recordPieces tmp sub t) (w, ps) records = .ok y →
      cs.Fits ∧ y = (w, ps ++ cs.pieces) := by
  induction records with
  | nil =>
      intro cs ps y h hy
      cases h
      cases hy
      exact ⟨trivial, by rw [Contents.pieces, List.append_nil]⟩
  | cons r records ih =>
      intro cs ps y h hy
      rw [Result.fold_cons] at hy
      cases h with
      | @plain _ _ _ _ key a value rest hname htype hvalue hread hrest =>
        -- a value: the record is written, or the buffer was too small
        rcases World.recordPieces_plain tmp sub hname htype hvalue hread ps
          with ⟨hkey, hfits, hrec⟩ | ⟨-, hrec⟩
        · rw [hrec, Result.ok_bind] at hy
          obtain ⟨hrestfits, hy⟩ := ih hrest hy
          refine ⟨⟨hkey, hfits, hrestfits⟩, ?_⟩
          rw [hy, Contents.pieces, List.append_assoc]
        · rw [hrec] at hy
          cases hy
      | @nested _ _ u _ _ key entries rest hname htype hread hu hrest =>
        -- a table: its text is what the call below writes
        rcases World.recordPieces_nested tmp sub hname htype hread ps
          with ⟨hkey, hrec⟩ | ⟨-, hrec⟩
        · rw [hrec] at hy
          obtain ⟨y₁, hs, hy⟩ := Result.bind_eq_ok.mp hy
          obtain ⟨z, hz, hs⟩ := Result.bind_eq_ok.mp hs
          obtain ⟨hfits, rfl⟩ := hsub u entries _ z hu hz
          cases hs
          obtain ⟨hrestfits, hy⟩ := ih hrest hy
          refine ⟨⟨hkey, hfits, hrestfits⟩, ?_⟩
          rw [hy, Contents.pieces, Content.pieces, Contents.tablePieces]
          simp only [List.append_assoc]
        · rw [hrec] at hy
          cases hy

/-- The records of a table that holds a tree. -/
theorem World.enumerated_of_keys {size : Nat} (hsize : w.size t = some (size, w))
    (hkeys : w.keys t size = some (records, w)) :
    w.enumerated t = (countInt records.length).map (fun _ => (records, w)) := by
  unfold World.enumerated
  rw [hsize, Option.bind_eq_bind, Option.bind_some]
  show (w.keys t size).bind _ = _
  rw [hkeys, Option.bind_some]
  show (countInt records.length).bind _ = _
  cases countInt records.length <;> rfl

/-- A call that gives its pieces formatted the whole tree, and everything
fitted. -/
theorem World.HoldsTable.pieces_ok (fuel : Nat) :
    ∀ {d : Nat} {t : Addr} {cs : Contents} {ps : List Bytes} {y : World × List Bytes},
      w.HoldsTable d t cs → World.pieces tmp fuel t (w, ps) = .ok y →
      cs.Fits ∧ y = (w, ps ++ cs.tablePieces) := by
  induction fuel with
  | zero => intro d t cs ps y h hy; cases hy
  | succ fuel ih =>
      intro d t cs ps y h hy
      cases h with
      | @table d _ _ records _ hsize hkeys hentries =>
        unfold World.pieces at hy
        rw [World.enumerated_of_keys hsize hkeys] at hy
        obtain ⟨p, hp, hy⟩ := Result.bind_eq_ok.mp hy
        obtain ⟨x, -, rfl⟩ := Option.map_eq_some_iff.mp (Result.ofOption_eq_ok.mp hp)
        obtain ⟨z, hf, hy⟩ := Result.bind_eq_ok.mp hy
        obtain ⟨hfits, rfl⟩ := hentries.pieces_ok (fun u cs ps y hu hs => ih hu hs) hf
        rw [Result.ok.injEq] at hy
        refine ⟨hfits, ?_⟩
        rw [← hy, Contents.tablePieces]
        simp only [List.append_assoc]

/-- The loop does not give up on entries that fit. -/
theorem World.HoldsEntries.pieces_fits
    (hsub : ∀ u cs ps, w.HoldsTable d u cs → cs.Fits → cs.text.length < 2147483648 →
      sub u (w, ps) ≠ .stuck)
    (hok : ∀ u cs ps y, w.HoldsTable d u cs → sub u (w, ps) = .ok y →
      cs.Fits ∧ y = (w, ps ++ cs.tablePieces)) :
    ∀ {cs : Contents} {ps : List Bytes}, w.HoldsEntries d t records cs → cs.Fits →
      cs.body.length < 2147483648 →
      Result.fold (World.recordPieces tmp sub t) (w, ps) records ≠ .stuck := by
  induction records with
  | nil =>
      intro cs ps h _ _ hstuck
      cases hstuck
  | cons r records ih =>
      intro cs ps h hfits hlen
      rw [Result.fold_cons]
      cases h with
      | @plain _ _ _ _ key a value rest hname htype hvalue hread hrest =>
        obtain ⟨hkey, hvfits, hrestfits⟩ := hfits
        rw [Contents.body_cons, List.length_append] at hlen
        rcases World.recordPieces_plain tmp sub hname htype hvalue hread ps
          with ⟨-, -, hrec⟩ | ⟨hno, -⟩
        · rw [hrec, Result.ok_bind]
          exact ih hrest hrestfits (by omega)
        · exact absurd ⟨hkey, hvfits⟩ hno
      | @nested _ _ u _ _ key entries rest hname htype hread hu hrest =>
        obtain ⟨hkey, hvfits, hrestfits⟩ := hfits
        rw [Contents.body_cons] at hlen
        simp only [List.length_append] at hlen
        -- the text of the table below is part of this one
        have htext : (Content.table entries).pieces.flatten.length = entries.text.length :=
          congrArg List.length entries.flatten_tablePieces
        rcases World.recordPieces_nested tmp sub hname htype hread ps
          with ⟨-, hrec⟩ | ⟨hno, -⟩
        · rw [hrec]
          have hns := hsub u entries (ps ++ [key.printed]) hu hvfits (by omega)
          cases hs : sub u (w, ps ++ [key.printed]) with
          | out => intro hstuck; cases hstuck
          | stuck => exact absurd hs hns
          | ok z =>
            rw [(hok u entries _ z hu hs).2]
            simp only [Result.ok_bind]
            exact ih hrest hrestfits (by omega)
        · exact absurd hkey hno

/-- A call does not give up on a tree that fits, unless it has more entries
than an `int` counts. -/
theorem World.HoldsTable.pieces_fits (fuel : Nat) :
    ∀ {d : Nat} {t : Addr} {cs : Contents} {ps : List Bytes}, w.HoldsTable d t cs → cs.Fits →
      cs.text.length < 2147483648 → World.pieces tmp fuel t (w, ps) ≠ .stuck := by
  induction fuel with
  | zero => intro d t cs ps h hfits hlen hstuck; cases hstuck
  | succ fuel ih =>
      intro d t cs ps h hfits hlen
      cases h with
      | @table d _ _ records _ hsize hkeys hentries =>
        rw [cs.length_text] at hlen
        have hcount : countInt records.length = some () := by
          have hle := cs.length_le_body
          rw [hentries.length_eq]
          exact if_pos (by omega)
        unfold World.pieces
        rw [World.enumerated_of_keys hsize hkeys, hcount]
        simp only [Option.map_some, Result.ofOption, Result.ok_bind]
        have hloop : Result.fold (World.recordPieces tmp (World.pieces tmp fuel) t)
            (w, ps ++ [[123]]) records ≠ .stuck :=
          hentries.pieces_fits (fun u cs ps hu hf hl => ih hu hf hl)
            (fun u cs ps y hu hs => hu.pieces_ok fuel hs) hfits (by omega)
        cases hf : Result.fold (World.recordPieces tmp (World.pieces tmp fuel) t)
            (w, ps ++ [[123]]) records with
        | out => intro hstuck; cases hstuck
        | stuck => exact absurd hf hloop
        | ok z => intro hstuck; cases hstuck

/-! ## §4. The shared buffer. -/

mutual

theorem Content.pieces_plain : ∀ value : Content, ∀ p ∈ value.pieces, (0 : UInt8) ∉ p
  | .number n, p, hp => by
      rw [List.mem_singleton.mp hp]
      exact lf_plain n
  | .boolean b, p, hp => by
      rw [List.mem_singleton.mp hp]
      split <;> decide
  | .string str, p, hp => by
      rw [List.mem_singleton.mp hp]
      exact plain_append (plain_append (by decide) (cBytes_plain str)) (by decide)
  | .table entries, p, hp => by
      rcases List.mem_append.mp hp with hp | hp
      · rcases List.mem_append.mp hp with hp | hp
        · rw [List.mem_singleton.mp hp]
          decide
        · exact Contents.pieces_plain entries p hp
      · rw [List.mem_singleton.mp hp]
        decide

theorem Contents.pieces_plain : ∀ cs : Contents, ∀ p ∈ cs.pieces, (0 : UInt8) ∉ p
  | .nil, p, hp => absurd hp (by rw [Contents.pieces]; exact List.not_mem_nil)
  | .cons key value rest, p, hp => by
      rw [Contents.pieces] at hp
      rcases List.mem_append.mp hp with hp | hp
      · rcases List.mem_append.mp hp with hp | hp
        · rcases List.mem_append.mp hp with hp | hp
          · rw [List.mem_singleton.mp hp]
            exact key.printed_plain
          · exact Content.pieces_plain value p hp
        · rw [List.mem_singleton.mp hp]
          decide
      · exact Contents.pieces_plain rest p hp

end

/-- A string without NUL is appended as far as there is room. -/
theorem appended_plain (str : Bytes) : ∀ {text : Bytes}, (0 : UInt8) ∉ str → text.length ≤ bufSize →
    appended text str = (text ++ str).take bufSize := by
  induction str with
  | nil =>
      intro text _ hle
      rw [List.append_nil, List.take_of_length_le hle]
      rfl
  | cons c str ih =>
      intro text hstr hle
      have hc : c ≠ 0 := fun h0 => hstr (h0 ▸ List.mem_cons_self)
      unfold appended
      by_cases hroom : text.length < bufSize
      · have hle' : (text ++ [c]).length ≤ bufSize := by
          rw [List.length_append]
          exact hroom
        rw [if_pos ⟨hc, hroom⟩, ih (fun h0 => hstr (List.mem_cons_of_mem c h0)) hle',
          List.append_assoc]
        rfl
      · have hfull : bufSize = text.length := by omega
        rw [if_neg (fun h => hroom h.2), hfull, List.take_left]

theorem foldl_appended_plain (ps : List Bytes) : ∀ {text : Bytes}, (∀ p ∈ ps, (0 : UInt8) ∉ p) →
    text.length ≤ bufSize → ps.foldl appended text = (text ++ ps.flatten).take bufSize := by
  induction ps with
  | nil =>
      intro text _ hle
      rw [List.flatten_nil, List.append_nil, List.take_of_length_le hle]
      rfl
  | cons p ps ih =>
      intro text hps hle
      have hlen : ((text ++ p).take bufSize).length ≤ bufSize := by
        rw [List.length_take]
        exact Nat.min_le_left _ _
      rw [List.foldl_cons, appended_plain p (hps p List.mem_cons_self) hle,
        ih (fun q hq => hps q (List.mem_cons_of_mem p hq)) hlen, List.flatten_cons,
        ← List.append_assoc]
      -- what was cut off stays cut off
      by_cases hroom : (text ++ p).length ≤ bufSize
      · rw [List.take_of_length_le hroom]
      · have hge : bufSize ≤ (text ++ p).length := by omega
        have hlen : ((text ++ p).take bufSize).length = bufSize := by
          rw [List.length_take]
          exact Nat.min_eq_left hge
        rw [List.take_append_of_le_length (Nat.le_of_eq hlen.symm), List.take_take, Nat.min_self,
          List.take_append_of_le_length hge]

/-- `serialize` of the table stays inside both buffers: no `sprintf` runs over
the end of `temp` (the text of one that does is not there), the cursor, which
goes up by one with every byte, does not pass the end of `buff`, and there is a
NUL after the text. -/
def World.StaysInside (w : World) (t : Addr) (tmp : Value) (out : SerializeBuff) : Prop :=
  ∃ w' out', w.serialize t tmp out = some (w', out') ∧ out'.cur ≤ bufSize
    ∧ ∃ text, out'.getSerialed = some text

/-- Reading the buffer to its end needs room for a NUL, when none was
written. -/
theorem SerializeBuff.room_of_getSerialed {out : SerializeBuff} (hplain : (0 : UInt8) ∉ out.buff)
    {text : Bytes} (h : out.getSerialed = some text) : out.buff.length < bufSize := by
  unfold SerializeBuff.getSerialed at h
  by_contra hfull
  rw [if_neg hfull] at h
  unfold cRead at h
  rw [if_neg hplain] at h
  exact absurd h (by simp)

/-- What a call that returns leaves behind. -/
theorem SerializeBuff.Ready.of_serialize {out out' : SerializeBuff} (h : out.Ready) {w' : World}
    (hx : w.serialize t tmp out = some (w', out')) :
    ∃ ps, World.pieces tmp w.brk t (w, []) = .ok (w', ps)
      ∧ out'.Over out.buff (ps.foldl appended []) ∧ out'.Ready := by
  unfold World.serialize at hx
  obtain ⟨⟨w₁, out₁⟩, hdo, hx⟩ := Option.bind_eq_some_iff.mp hx
  obtain ⟨text, hget, hx⟩ := Option.bind_eq_some_iff.mp hx
  cases hx
  have hpieces := World.doSerialize_pieces tmp { out with cur := 0 } w.brk t (w, [])
  have hstart : ({ out with cur := 0 } : SerializeBuff).write (w, []) = (w, { out with cur := 0 }) := rfl
  rw [hstart, hdo] at hpieces
  obtain ⟨⟨w₂, ps⟩, hok, heq⟩ := Option.map_eq_some_iff.mp hpieces.symm
  cases heq
  have hover := out.over_start.addStrings ps
  have hplain : (0 : UInt8) ∉ (({ out with cur := 0 } : SerializeBuff).addStrings ps).buff := by
    rw [hover.buff]
    exact plain_append hover.plain (fun h0 => h.plain (List.mem_of_mem_drop h0))
  exact ⟨ps, Result.toOption_eq_some.mp hok, hover, hplain,
    SerializeBuff.room_of_getSerialed hplain hget⟩

/-- The buffer between the calls of a run. -/
theorem SerializeBuff.run_ready {calls : List SerializeCall} {shown : List Bytes}
    {out : SerializeBuff} (h : Run.run SerializeBuff.answer .blank calls = some (shown, out)) :
    out.Ready := by
  refine Run.run_inv SerializeBuff.answer (I := SerializeBuff.Ready) ?_
    ⟨by simp [SerializeBuff.blank], by decide⟩ h
  intro out c text out' hready hx
  unfold SerializeBuff.answer at hx
  obtain ⟨⟨w', out₁⟩, hser, hx⟩ := Option.bind_eq_some_iff.mp hx
  obtain ⟨text', -, hx⟩ := Option.bind_eq_some_iff.mp hx
  cases hx
  obtain ⟨ps, -, -, hready'⟩ := hready.of_serialize hser
  exact hready'

/-! ## §5. Tables that hold one entry. -/

/-- The record of a node under a short key prints the key. -/
theorem Node.Named.names {n : Node} (hn : n.Named) (hwf : n.Wf) (hk : n.storedKey = some key) :
    n.record.Names key := by
  refine ⟨by rw [hwf.toKey_record, hk], ?_⟩
  have hkind := hwf.kind
  cases hs : n.strkey with
  | none =>
    rw [hs] at hkind
    -- an index is printed as its `int`
    have hkind : n.keyType ≠ .string := by rw [hkind]; decide
    have hrec : n.record = { type := n.v.type, key := none, szIdx := asSize n.numkey } := by
      unfold Node.record
      rw [if_neg hkind]
    have hkey : Key.num (UInt64.ofNat (asSize n.numkey)) = key := by
      unfold Node.storedKey at hk
      rw [hs] at hk
      exact Option.some.inj hk
    have hlt := asSize_lt n.numkey
    rw [← hkey, hrec]
    show some ([91, 34] ++ decimal (asInt (asSize n.numkey)) ++ [34, 93, 61]) = _
    rw [Key.printed, UInt64.toNat_ofNat']
    rw [Nat.mod_eq_of_lt (show asSize n.numkey < 2 ^ 64 from hlt)]
  | some p =>
    obtain ⟨a, slot⟩ := p
    obtain ⟨name, rfl, hname, -⟩ := hn.storedKey hs
    rw [hk, Option.some.injEq] at hname
    rw [hs] at hkind
    have hkind : n.keyType = .string := hkind
    have hrec : n.record.key = some (a, newString name) := by
      unfold Node.record
      rw [if_pos hkind]
      exact hs
    unfold TableKey.text
    rw [hrec, hname]
    show (cRead (name ++ [0])).map _ = _
    rw [cRead_terminated]
    rfl

/-- A fresh table after one setter call. -/
def oneEntry (c : SetCall) : List CollectStep := [.create, .set 1 c]

/-- A table with one entry holds it. -/
theorem oneEntry_holds {c : SetCall} {value : Content} (hk : c.key.Short)
    (hv : c.arg.content = some value) {s : NestState}
    (hrun : Run.run NestState.collect .start (oneEntry c) = some ([0, 0], s)) {r : TableKey}
    {size : Nat} (hsize : (s.w.size 1).map Prod.fst = some size)
    (hrecords : (s.w.keys 1 size).map Prod.fst = some [r]) :
    1 ∈ s.made ∧ s.w.HoldsTable 1 1 (.cons c.key value .nil) := by
  -- the two steps are a `new table` and a setter call
  obtain ⟨o₁, s₁, os₁, hcreate, hrun, heq⟩ := (Run.run_cons_some _).mp hrun
  obtain ⟨o₂, s₂, os₂, hset, hrun, heq'⟩ := (Run.run_cons_some _).mp hrun
  rw [Run.run_nil, Option.some.injEq, Prod.mk.injEq] at hrun
  obtain ⟨rfl, rfl⟩ := hrun
  rw [heq'] at heq
  simp only [List.cons.injEq, and_true] at heq
  obtain ⟨-, rfl⟩ := heq
  have hcreate : World.empty.newTable.bind (fun p => some ((0 : Int), (⟨p.2, [p.1]⟩ : NestState)))
      = some (o₁, s₁) := hcreate
  obtain ⟨⟨t, w₀⟩, hnew, hcreate⟩ := Option.bind_eq_some_iff.mp hcreate
  cases hcreate
  have hset : (w₀.set 1 c).bind (fun p => some (p.1, (⟨p.2, [t]⟩ : NestState))) = some (0, s₂) := hset
  obtain ⟨⟨code, w₁⟩, hcall, hx⟩ := Option.bind_eq_some_iff.mp hset
  cases hx
  have ht : t = 1 := (World.of_newTable hnew).1
  subst ht
  refine ⟨List.mem_cons_self, ?_⟩
  have hall : w₀.setAll 1 [c] = some ([0], w₁) :=
    (Run.run_cons_some _).mpr ⟨0, w₁, [], hcall, rfl, rfl⟩
  obtain ⟨tb₀, hrep₀⟩ := World.Rep.newTable hnew
  obtain ⟨tb, m, hrep⟩ := hrep₀.of_setAll_zero [c]
    (by intro x hx; rw [List.mem_singleton.mp hx]; exact hk.fits) hall (by simp)
  obtain ⟨tb₁, hs₀⟩ := World.Sound.newTable World.empty_tidy hnew
  obtain ⟨tb', m', hs, hnamed⟩ := hs₀.setAll_named
    (by intro n hn; exact absurd hn (by simp [LMap.new_entries]))
    (by intro x hx; rw [List.mem_singleton.mp hx]; exact hk) hall
  have hmm : m' = m := by
    have htb := Option.some.inj (hs.toOwns.table.symm.trans hrep.toOwns.table)
    have hmap := hs.toOwns.map
    rw [htb] at hmap
    exact Option.some.inj (hmap.symm.trans hrep.toOwns.map)
  subst hmm
  -- the record is that of a node, which stands for the call
  obtain ⟨⟨size', w₂⟩, hcap, hsize'⟩ := Option.map_eq_some_iff.mp hsize
  have hsize' : size' = size := hsize'
  subst hsize'
  have hcap : w₁.size 1 = some (size', w₂) := hcap
  obtain ⟨-, hw₂, -⟩ := hrep.toOwns.of_size hcap
  subst hw₂
  obtain ⟨⟨records, w₃⟩, hkeys, hrecords⟩ := Option.map_eq_some_iff.mp hrecords
  have hrecords : records = [r] := hrecords
  subst hrecords
  have hkeys : w₂.keys 1 size' = some ([r], w₃) := hkeys
  obtain ⟨htaken, hw₃⟩ := hrep.toOwns.of_keys hrep.inv.toWf hkeys
  subst hw₃
  generalize keysLimit size' = limit at htaken
  have hr : r ∈ m'.takeRecords limit := by
    rw [← htaken]
    exact List.mem_singleton_self r
  obtain ⟨n, hn, rfl⟩ := List.mem_map.mp hr
  have hmem := List.mem_of_mem_take hn
  obtain ⟨key, a, hkey, ha, hty, -⟩ := hrep.of_node hmem
  obtain ⟨c', hc', rfl, rfl⟩ := lastSet_mem ha
  rw [List.mem_singleton.mp hc'] at hkey ha hty
  have htype : n.record.type = c.arg.type := by rw [n.record_type, hty]
  have hread := hrep.readsAs c.key
  rw [ha] at hread
  exact .table hcap hkeys
    (.plain ((hnamed n hmem).names (hs.wf.node n hmem) hkey) htype hv hread .nil)

/-! ## §6. The result. -/

/-- In every collection, and whatever was serialized before, `serialize` of a
finite tree of tables stays inside its buffers exactly when every key and every
string fits `temp` and the text is shorter than `BUF_SIZE`. -/
theorem serialize_inside_iff {calls : List SerializeCall} {shown : List Bytes}
    {out : SerializeBuff} (hearlier : Run.run SerializeBuff.answer .blank calls = some (shown, out))
    {steps : List CollectStep} {os : List Int} {s : NestState}
    (hrun : Run.run NestState.collect .start steps = some (os, s))
    (hin : Run.Along NestState.collect NestState.Inside .start steps) (ht : t ∈ s.made)
    (hc : s.w.HoldsTable d t cs) (tmp : Value) :
    s.w.StaysInside t tmp out ↔ cs.Fits ∧ cs.text.length < bufSize := by
  have hready := SerializeBuff.run_ready hearlier
  have hplain : ∀ p ∈ cs.tablePieces, (0 : UInt8) ∉ p := Content.pieces_plain (.table cs)
  have htext : cs.tablePieces.foldl appended [] = cs.text.take bufSize := by
    rw [foldl_appended_plain _ hplain (Nat.zero_le _), List.nil_append, cs.flatten_tablePieces]
  constructor
  · intro ⟨w', out', hser, _, _⟩
    obtain ⟨ps, hok, hover, hready'⟩ := hready.of_serialize hser
    obtain ⟨hfits, heq⟩ := hc.pieces_ok _ hok
    have hps : ps = cs.tablePieces := congrArg Prod.snd heq
    refine ⟨hfits, ?_⟩
    -- the text is in the buffer, which has room left
    have hroom := hready'.room
    rw [hover.buff, hps, htext, List.length_append, List.length_take] at hroom
    omega
  · intro ⟨hfits, hlen⟩
    have hends : (World.pieces tmp s.w.brk t (s.w, [])).Ends :=
      (NestState.run_collected hrun hin).pieces_ends ht (no_cycle_of_acc (hc.acc d)) []
    have hns : World.pieces tmp s.w.brk t (s.w, []) ≠ .stuck :=
      hc.pieces_fits _ hfits (Nat.lt_trans hlen (by decide))
    cases hok : World.pieces tmp s.w.brk t (s.w, []) with
    | out => exact absurd hok hends
    | stuck => exact absurd hok hns
    | ok y =>
      obtain ⟨-, rfl⟩ := hc.pieces_ok _ hok
      have htext : cs.tablePieces.foldl appended [] = cs.text := by
        rw [htext, List.take_of_length_le (Nat.le_of_lt hlen)]
      have hover := out.over_start.addStrings cs.tablePieces
      rw [htext] at hover
      have hready' : (({ out with cur := 0 } : SerializeBuff).addStrings cs.tablePieces).Ready := by
        refine ⟨?_, ?_⟩
        · rw [hover.buff]
          exact plain_append hover.plain (fun h0 => hready.plain (List.mem_of_mem_drop h0))
        · have := hready.room
          rw [hover.buff, List.length_append, List.length_drop]
          omega
      refine ⟨s.w, ({ out with cur := 0 } : SerializeBuff).addStrings cs.tablePieces, ?_, ?_,
        _, hready'.getSerialed⟩
      · have hdo := World.doSerialize_pieces tmp { out with cur := 0 } s.w.brk t (s.w, [])
        rw [hok] at hdo
        have hdo : World.doSerialize tmp s.w.brk t (s.w, { out with cur := 0 })
            = some (s.w, ({ out with cur := 0 } : SerializeBuff).addStrings cs.tablePieces) := hdo
        unfold World.serialize
        rw [hdo, Option.bind_eq_bind, Option.bind_some]
        show ((({ out with cur := 0 } : SerializeBuff).addStrings cs.tablePieces).getSerialed).bind _ = _
        rw [hready'.getSerialed]
        rfl
      · rw [hover.cur]
        exact Nat.le_of_lt hlen

/-- A boolean value under a short key. -/
theorem serialize_inside_iff_boolean :
    ∃ s, Run.run NestState.collect .start (oneEntry ⟨.str [97], .boolean 1, .blank⟩)
        = some ([0, 0], s)
      ∧ (s.w.StaysInside 1 .blank .blank
        ↔ (Contents.cons (.str [97]) (.boolean 1) .nil).Fits
          ∧ (Contents.cons (.str [97]) (.boolean 1) .nil).text.length < bufSize) := by
  have hend : (Run.run NestState.collect .start (oneEntry ⟨.str [97], .boolean 1, .blank⟩)).bind
      (fun q => (q.2.w.size 1).bind (fun p => (q.2.w.keys 1 p.1).map (fun k => (q.1, k.1.length))))
      = some ([0, 0], 1) := by decide +kernel
  obtain ⟨⟨os, s⟩, hrun, hend⟩ := Option.bind_eq_some_iff.mp hend
  obtain ⟨⟨size, w₁⟩, hsize, hend⟩ := Option.bind_eq_some_iff.mp hend
  obtain ⟨⟨records, w₂⟩, hkeys, hend⟩ := Option.map_eq_some_iff.mp hend
  simp only [Prod.mk.injEq] at hend
  obtain ⟨rfl, hlen⟩ := hend
  obtain ⟨r, rfl⟩ := List.length_eq_one_iff.mp hlen
  obtain ⟨ht, hholds⟩ := oneEntry_holds (c := ⟨.str [97], .boolean 1, .blank⟩) (by decide) rfl hrun
    (by rw [hsize]; rfl) (by rw [hkeys]; rfl)
  have hnone : Run.run SerializeBuff.answer .blank [] = some ([], .blank) := rfl
  exact ⟨s, hrun, serialize_inside_iff hnone hrun (by decide +kernel) ht hholds .blank⟩

/-- A string of 998 bytes under a short key does not fit `temp`. -/
theorem serialize_overruns_temp :
    ∃ s cs, Run.run NestState.collect .start
        (oneEntry ⟨.str [97], .string (List.replicate 998 98), .blank⟩) = some ([0, 0], s)
      ∧ 1 ∈ s.made ∧ s.w.HoldsTable 1 1 cs ∧ ¬ s.w.StaysInside 1 .blank .blank := by
  have hend : (Run.run NestState.collect .start
      (oneEntry ⟨.str [97], .string (List.replicate 998 98), .blank⟩)).bind
      (fun q => (q.2.w.size 1).bind (fun p => (q.2.w.keys 1 p.1).map (fun k => (q.1, k.1.length))))
      = some ([0, 0], 1) := by decide +kernel
  obtain ⟨⟨os, s⟩, hrun, hend⟩ := Option.bind_eq_some_iff.mp hend
  obtain ⟨⟨size, w₁⟩, hsize, hend⟩ := Option.bind_eq_some_iff.mp hend
  obtain ⟨⟨records, w₂⟩, hkeys, hend⟩ := Option.map_eq_some_iff.mp hend
  simp only [Prod.mk.injEq] at hend
  obtain ⟨rfl, hlen⟩ := hend
  obtain ⟨r, rfl⟩ := List.length_eq_one_iff.mp hlen
  obtain ⟨ht, hholds⟩ := oneEntry_holds
    (c := ⟨.str [97], .string (List.replicate 998 98), .blank⟩) (by decide) rfl hrun
    (by rw [hsize]; rfl) (by rw [hkeys]; rfl)
  refine ⟨s, _, hrun, ht, hholds, ?_⟩
  intro ⟨w', out', hser, _, _⟩
  have hblank : SerializeBuff.blank.Ready := ⟨by simp [SerializeBuff.blank], by decide⟩
  obtain ⟨ps, hok, -, -⟩ := hblank.of_serialize hser
  obtain ⟨⟨-, hfits, -⟩, -⟩ := hholds.pieces_ok _ hok
  have hfits : (cBytes (List.replicate 998 98)).length ≤ 997 := hfits
  exact absurd hfits (by decide +kernel)

end LightTable
