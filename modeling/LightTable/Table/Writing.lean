/-
  LightTable.Table.Writing
  ────────────────────────
  `_do_serialize`, record by record, apart from where the bytes go.

  A record is a key, a value and a separator.  What is formatted for the key
  and for a value that is no table depends on the table only
  (`World.serializeRecord_plain`); a value that is a table is a recursive call
  between the key and the separator (`World.serializeRecord_ud`).

  So the strings that are handed to `_add_string_to_buff`, one after the other,
  do not depend on the buffer: `World.pieces` collects them, and `_do_serialize`
  writes them in order (`World.doSerialize_pieces`).
-/
import LightTable.Table.Serialize
import LightTable.Lib.Fuel

namespace LightTable

open Fuel

variable {t : Addr} {r : TableKey} {tmp : Value}

/-! ## §1. What a record formats. -/

/-- What the `switch` formats for a value that is no table, and the world after
reading it. -/
def World.valueText (w : World) (t : Addr) (r : TableKey) (tmp : Value) : Option (World × Bytes) :=
  match r.type with
  | .nil => some (w, [])
  | .number => do
      let (d, w) ← w.getNumber t (← r.toKey) tmp
      return (w, lf d)
  | .boolean => do
      let (b, w) ← w.getBoolean t (← r.toKey) tmp
      return (w, if b ≠ 0 then [116, 114, 117, 101] else [102, 97, 108, 115, 101])
  | .ud => none
  | .string => do
      let (strret, w) ← w.getString t (← r.toKey) tmp
      let s ← cRead (← w.atPtr strret)
      return (w, [34] ++ s ++ [34])

/-- The pointer that the `switch` follows for a value that is a table. -/
def World.subTable (w : World) (t : Addr) (r : TableKey) (tmp : Value) : Option (Addr × World) :=
  r.toKey.bind (fun key => w.getUd t key tmp)

/-- A value that is no table. -/
theorem World.serializeValue_plain (hr : r.type ≠ .ud)
    (sub : Addr → World × SerializeBuff → Option (World × SerializeBuff)) (w : World)
    (out : SerializeBuff) :
    World.serializeValue tmp sub t r (w, out)
      = (w.valueText t r tmp).bind (fun p =>
          (sprintfTemp p.2).map (fun text => (p.1, out.addString text))) := by
  unfold World.serializeValue World.valueText
  cases hty : r.type with
  | nil => rfl
  | ud => exact absurd hty hr
  | number =>
    show (r.toKey.bind _) = (r.toKey.bind _).bind _
    cases r.toKey with
    | none => rfl
    | some key =>
      show (w.getNumber t key tmp).bind _ = ((w.getNumber t key tmp).bind _).bind _
      cases w.getNumber t key tmp with
      | none => rfl
      | some p =>
        show (sprintfTemp (lf p.1)).bind _ = (sprintfTemp (lf p.1)).map _
        cases sprintfTemp (lf p.1) <;> rfl
  | boolean =>
    show (r.toKey.bind _) = (r.toKey.bind _).bind _
    cases r.toKey with
    | none => rfl
    | some key =>
      show (w.getBoolean t key tmp).bind _ = ((w.getBoolean t key tmp).bind _).bind _
      cases w.getBoolean t key tmp with
      | none => rfl
      | some p =>
        -- both sides print the same word
        generalize htext : (if p.1 ≠ 0 then ([116, 114, 117, 101] : Bytes)
          else [102, 97, 108, 115, 101]) = text
        show (sprintfTemp (if p.1 ≠ 0 then [116, 114, 117, 101] else [102, 97, 108, 115, 101])).bind _
          = (sprintfTemp (if p.1 ≠ 0 then [116, 114, 117, 101] else [102, 97, 108, 115, 101])).map _
        rw [htext]
        cases sprintfTemp text <;> rfl
  | string =>
    show (r.toKey.bind _) = (r.toKey.bind _).bind _
    cases r.toKey with
    | none => rfl
    | some key =>
      show (w.getString t key tmp).bind _ = ((w.getString t key tmp).bind _).bind _
      cases w.getString t key tmp with
      | none => rfl
      | some p =>
        show (p.2.atPtr p.1).bind _ = ((p.2.atPtr p.1).bind _).bind _
        cases p.2.atPtr p.1 with
        | none => rfl
        | some buf =>
          show (cRead buf).bind _ = ((cRead buf).bind _).bind _
          cases cRead buf with
          | none => rfl
          | some s =>
            show (sprintfTemp ([34] ++ s ++ [34])).bind _ = (sprintfTemp ([34] ++ s ++ [34])).map _
            cases sprintfTemp ([34] ++ s ++ [34]) <;> rfl

/-- What is formatted for the key of a record. -/
def TableKey.head (r : TableKey) : Option Bytes := r.text.bind sprintfTemp

/-- A record whose value is no table: key, value and separator. -/
theorem World.serializeRecord_plain (hr : r.type ≠ .ud)
    (sub : Addr → World × SerializeBuff → Option (World × SerializeBuff)) (w : World)
    (out : SerializeBuff) :
    World.serializeRecord tmp sub t (w, out) r
      = r.head.bind (fun head => (w.valueText t r tmp).bind (fun p =>
          (sprintfTemp p.2).map (fun text =>
            (p.1, ((out.addString head).addString text).addString [44, 10])))) := by
  unfold World.serializeRecord TableKey.head
  show (r.text.bind _) = (r.text.bind sprintfTemp).bind _
  cases r.text with
  | none => rfl
  | some text =>
    show (sprintfTemp text).bind _ = (sprintfTemp text).bind _
    cases sprintfTemp text with
    | none => rfl
    | some head =>
      show (World.serializeValue tmp sub t r (w, out.addString head)).bind _ = _
      rw [World.serializeValue_plain hr]
      show ((w.valueText t r tmp).bind _).bind _ = (w.valueText t r tmp).bind _
      cases w.valueText t r tmp with
      | none => rfl
      | some p =>
        show ((sprintfTemp p.2).map _).bind _ = (sprintfTemp p.2).map _
        cases sprintfTemp p.2 <;> rfl

/-- A record whose value is a table: key, recursive call and separator. -/
theorem World.serializeRecord_ud (hr : r.type = .ud)
    (sub : Addr → World × SerializeBuff → Option (World × SerializeBuff)) (w : World)
    (out : SerializeBuff) :
    World.serializeRecord tmp sub t (w, out) r
      = r.head.bind (fun head => (w.subTable t r tmp).bind (fun p =>
          (sub p.1 (p.2, out.addString head)).map (fun y => (y.1, y.2.addString [44, 10])))) := by
  unfold World.serializeRecord TableKey.head World.subTable World.serializeValue
  show (r.text.bind _) = (r.text.bind sprintfTemp).bind _
  cases r.text with
  | none => rfl
  | some text =>
    show (sprintfTemp text).bind _ = (sprintfTemp text).bind _
    cases sprintfTemp text with
    | none => rfl
    | some head =>
      rw [hr]
      show ((r.toKey.bind _).bind _) = (r.toKey.bind _).bind _
      cases r.toKey with
      | none => rfl
      | some key =>
        show ((w.getUd t key tmp).bind _).bind _ = (w.getUd t key tmp).bind _
        cases w.getUd t key tmp with
        | none => rfl
        | some p =>
          show (sub p.1 (p.2, out.addString head)).bind _ = (sub p.1 (p.2, out.addString head)).map _
          cases sub p.1 (p.2, out.addString head) <;> rfl

/-! ## §2. One table. -/

/-- What `_do_serialize` enumerates before it starts to write. -/
def World.enumerated (w : World) (t : Addr) : Option (List TableKey × World) := do
  let (size, w) ← w.size t
  let (keys, w) ← w.keys t size
  let _ ← countInt keys.length
  return (keys, w)

/-- The brace, the records and the other brace. -/
theorem World.doSerialize_eq (fuel : Nat) (t : Addr) (w : World) (out : SerializeBuff) :
    World.doSerialize tmp (fuel + 1) t (w, out)
      = (w.enumerated t).bind (fun p =>
          (p.1.foldlM (World.serializeRecord tmp (World.doSerialize tmp fuel) t)
            (p.2, out.addString [123])).map (fun x => (x.1, x.2.addString [125]))) := by
  unfold World.enumerated
  rw [World.doSerialize]
  show (w.size t).bind _ = ((w.size t).bind _).bind _
  cases w.size t with
  | none => rfl
  | some p =>
    show (p.2.keys t p.1).bind _ = ((p.2.keys t p.1).bind _).bind _
    cases p.2.keys t p.1 with
    | none => rfl
    | some q =>
      show (countInt q.1.length).bind _ = ((countInt q.1.length).bind _).bind _
      cases countInt q.1.length with
      | none => rfl
      | some u =>
        show (q.1.foldlM (World.serializeRecord tmp (World.doSerialize tmp fuel) t)
            (q.2, out.addString [123])).bind _
          = (q.1.foldlM (World.serializeRecord tmp (World.doSerialize tmp fuel) t)
            (q.2, out.addString [123])).map _
        cases q.1.foldlM (World.serializeRecord tmp (World.doSerialize tmp fuel) t)
          (q.2, out.addString [123]) <;> rfl

/-! ## §3. The pieces. -/

/-- One record, with what was handed to `_add_string_to_buff` so far instead of
the buffer. -/
def World.recordPieces (tmp : Value)
    (sub : Addr → World × List Bytes → Result (World × List Bytes)) (t : Addr)
    (x : World × List Bytes) (r : TableKey) : Result (World × List Bytes) :=
  (Result.ofOption r.head).bind (fun head =>
    if r.type = .ud then
      (Result.ofOption (x.1.subTable t r tmp)).bind (fun p =>
        (sub p.1 (p.2, x.2 ++ [head])).bind (fun y => .ok (y.1, y.2 ++ [[44, 10]])))
    else
      (Result.ofOption (x.1.valueText t r tmp)).bind (fun p =>
        (Result.ofOption (sprintfTemp p.2)).bind (fun text =>
          .ok (p.1, x.2 ++ [head, text, [44, 10]]))))

/-- The strings that `_do_serialize` hands to `_add_string_to_buff`, after
those of `x`, for at most `fuel` nested calls. -/
def World.pieces (tmp : Value) :
    Nat → Addr → World × List Bytes → Result (World × List Bytes)
  | 0, _, _ => .out
  | fuel + 1, t, x =>
      (Result.ofOption (x.1.enumerated t)).bind (fun p =>
        (Result.fold (World.recordPieces tmp (World.pieces tmp fuel) t) (p.2, x.2 ++ [[123]]) p.1).bind
          (fun y => .ok (y.1, y.2 ++ [[125]])))

/-- Write strings one after the other. -/
def SerializeBuff.addStrings (out : SerializeBuff) (ps : List Bytes) : SerializeBuff :=
  ps.foldl SerializeBuff.addString out

@[simp] theorem SerializeBuff.addStrings_nil (out : SerializeBuff) : out.addStrings [] = out := rfl

@[simp] theorem SerializeBuff.addStrings_snoc (out : SerializeBuff) (ps : List Bytes) (str : Bytes) :
    out.addStrings (ps ++ [str]) = (out.addStrings ps).addString str := by
  unfold SerializeBuff.addStrings
  rw [List.foldl_append]
  rfl

/-- The collected strings, written from `out` on. -/
def SerializeBuff.write (out : SerializeBuff) (x : World × List Bytes) : World × SerializeBuff :=
  (x.1, out.addStrings x.2)

/-- The pieces of one record, given those of a nested table. -/
theorem World.serializeRecord_pieces (out : SerializeBuff)
    {sub : Addr → World × SerializeBuff → Option (World × SerializeBuff)}
    {sub' : Addr → World × List Bytes → Result (World × List Bytes)}
    (hsub : ∀ u x, sub u (out.write x) = (sub' u x).toOption.map out.write) (x : World × List Bytes) :
    World.serializeRecord tmp sub t (out.write x) r
      = (World.recordPieces tmp sub' t x r).toOption.map out.write := by
  unfold World.recordPieces
  rw [Result.toOption_bind, Result.toOption_ofOption]
  by_cases hr : r.type = .ud
  · rw [SerializeBuff.write, World.serializeRecord_ud hr]
    cases r.head with
    | none => rfl
    | some head =>
      simp only [Option.bind_some, if_pos hr, Result.toOption_bind, Result.toOption_ofOption]
      cases x.1.subTable t r tmp with
      | none => rfl
      | some p =>
        -- the head is written before the table below is
        have hin : (p.2, (out.addStrings x.2).addString head) = out.write (p.2, x.2 ++ [head]) := by
          unfold SerializeBuff.write
          rw [SerializeBuff.addStrings_snoc]
        simp only [Option.bind_some]
        rw [hin, hsub]
        cases (sub' p.1 (p.2, x.2 ++ [head])).toOption with
        | none => rfl
        | some y =>
          show some (y.1, (out.addStrings y.2).addString [44, 10]) = some (out.write (y.1, y.2 ++ [[44, 10]]))
          unfold SerializeBuff.write
          rw [SerializeBuff.addStrings_snoc]
  · rw [SerializeBuff.write, World.serializeRecord_plain hr]
    cases r.head with
    | none => rfl
    | some head =>
      simp only [Option.bind_some, if_neg hr, Result.toOption_bind, Result.toOption_ofOption]
      cases x.1.valueText t r tmp with
      | none => rfl
      | some p =>
        simp only [Option.bind_some]
        cases sprintfTemp p.2 with
        | none => rfl
        | some text =>
          show some (p.1, (((out.addStrings x.2).addString head).addString text).addString [44, 10])
            = some (out.write (p.1, x.2 ++ [head, text, [44, 10]]))
          unfold SerializeBuff.write SerializeBuff.addStrings
          rw [List.foldl_append]
          rfl

/-- `_do_serialize` writes the pieces in order, whatever the buffer is. -/
theorem World.doSerialize_pieces (tmp : Value) (out : SerializeBuff) (fuel : Nat) :
    ∀ (t : Addr) (x : World × List Bytes),
      World.doSerialize tmp fuel t (out.write x) = (World.pieces tmp fuel t x).toOption.map out.write := by
  induction fuel with
  | zero => intro t x; rfl
  | succ fuel ih =>
      intro t x
      rw [SerializeBuff.write, World.doSerialize_eq, World.pieces]
      rw [Result.toOption_bind, Result.toOption_ofOption]
      cases x.1.enumerated t with
      | none => rfl
      | some p =>
        -- the loop over the records, from the brace on
        have hloop : ∀ (rs : List TableKey) (y : World × List Bytes),
            rs.foldlM (World.serializeRecord tmp (World.doSerialize tmp fuel) t) (out.write y)
              = (Result.fold (World.recordPieces tmp (World.pieces tmp fuel) t) y rs).toOption.map
                  out.write := by
          intro rs
          induction rs with
          | nil => intro y; rfl
          | cons r rs ihr =>
              intro y
              rw [List.foldlM_cons, World.serializeRecord_pieces out ih y, Result.fold_cons,
                Result.toOption_bind]
              cases (World.recordPieces tmp (World.pieces tmp fuel) t y r).toOption with
              | none => rfl
              | some z => exact ihr z
        have hin : (p.2, (out.addStrings x.2).addString [123]) = out.write (p.2, x.2 ++ [[123]]) := by
          unfold SerializeBuff.write
          rw [SerializeBuff.addStrings_snoc]
        simp only [Option.bind_some]
        rw [hin, hloop, Result.toOption_bind]
        cases (Result.fold (World.recordPieces tmp (World.pieces tmp fuel) t)
          (p.2, x.2 ++ [[123]]) p.1).toOption with
        | none => rfl
        | some y =>
          show some (y.1, (out.addStrings y.2).addString [125]) = some (out.write (y.1, y.2 ++ [[125]]))
          unfold SerializeBuff.write
          rw [SerializeBuff.addStrings_snoc]

end LightTable
