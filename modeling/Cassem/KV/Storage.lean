import Mathlib.Data.String.Basic
import Cassem.Lib.HierMap
import Cassem.Concept.Error
import Cassem.KV.Entity

/-!
# The bolt storage

`boltRepoImpl` over a bbolt database. The database is a tree of buckets and
values under one root; a bucket handle is its path. The bucket methods return an
error where a value stands for a bucket or a bucket for a value, and a failed
`Batch` function leaves the database as it was. `setKV` and `unsetKV` are then
operations on a hierarchical map: the two `_spec` theorems say which one a key
names, when it succeeds, and what it does.
-/

namespace Cassem.KV

open Lib Lib.HierMap

/-- The contents of the bolt file. -/
abbrev Store := Tree String Entity

/-- A bucket handle: the names on the way to the bucket. -/
abbrev Bucket := List String

namespace Bolt

def MaxKeySize : Nat := 32768

def ErrBucketNameRequired : GoError := .text "bucket name required"
def ErrBucketExists : GoError := .text "bucket already exists"
def ErrBucketNotFound : GoError := .text "bucket not found"
def ErrIncompatibleValue : GoError := .text "incompatible value"
def ErrKeyRequired : GoError := .text "key required"
def ErrKeyTooLarge : GoError := .text "key too large"

/-- `Bucket.Bucket(name)`, or `Tx.Bucket(name)` at the root: nil for a value. -/
def bucket (tx : Store) (b : Bucket) (name : String) : Option Bucket :=
  if tx.look (b ++ [name]) = some .dir then some (b ++ [name]) else none

/-- What a cursor over the bucket walks through. -/
def cursor (tx : Store) (b : Bucket) : List (String × Cell Entity) := tx.kids b

def createBucket (tx : Store) (b : Bucket) (name : String) : Except GoError (Store × Bucket) :=
  if name = "" then .error ErrBucketNameRequired
  else match tx.look (b ++ [name]) with
    | some .dir => .error ErrBucketExists
    | some (.val _) => .error ErrIncompatibleValue
    | none => .ok (tx.put b name .dir, b ++ [name])

def createBucketIfNotExists (tx : Store) (b : Bucket) (name : String) : Except GoError Store :=
  if name = "" then .error ErrBucketNameRequired
  else match tx.look (b ++ [name]) with
    | some .dir => .ok tx
    | some (.val _) => .error ErrIncompatibleValue
    | none => .ok (tx.put b name .dir)

def deleteBucket (tx : Store) (b : Bucket) (name : String) : Except GoError Store :=
  match tx.look (b ++ [name]) with
  | none => .error ErrBucketNotFound
  | some (.val _) => .error ErrIncompatibleValue
  | some .dir => .ok (tx.remove b name)

def get (tx : Store) (b : Bucket) (k : String) : Option Entity :=
  match tx.look (b ++ [k]) with
  | some (.val v) => some v
  | _ => none

def put (tx : Store) (b : Bucket) (k : String) (v : Entity) : Except GoError Store :=
  if k = "" then .error ErrKeyRequired
  else if k.utf8ByteSize > MaxKeySize then .error ErrKeyTooLarge
  else match tx.look (b ++ [k]) with
    | some .dir => .error ErrIncompatibleValue
    | _ => .ok (tx.put b k (.val v))

/-- `Bucket.Delete`: a missing key is no error. -/
def delete (tx : Store) (b : Bucket) (k : String) : Except GoError Store :=
  match tx.look (b ++ [k]) with
  | none => .ok tx
  | some .dir => .error ErrIncompatibleValue
  | some (.val _) => .ok (tx.remove b k)

end Bolt

def ErrNotFound : GoError := .errorf "record not found: " (.concept Concept.Err_NOT_FOUND)
def ErrExists : GoError := .errorf "key/bucket exists: " (.concept Concept.Err_ALREADY_EXISTS)
def ErrEmptyNode : GoError := .errorf "empty node: " (.concept Concept.Err_INVALID_ARGUMENT)
def ErrEmptyLeaf : GoError := .errorf "empty leaf: " (.concept Concept.Err_INVALID_ARGUMENT)
def ErrNoSuchBucket : GoError := .errorf "no such bucket: " (.concept Concept.Err_NOT_FOUND)
def ErrNoParentBucket : GoError :=
  .errorf "no parent bucket: " (.concept Concept.Err_INVALID_ARGUMENT)

def splitChars : List Char → List (List Char)
  | [] => [[]]
  | c :: cs =>
      if c = '/' then [] :: splitChars cs
      else match splitChars cs with
        | [] => [[c]]
        | w :: ws => (c :: w) :: ws

/-- `strings.Split(s, "/")`. -/
def split (s : String) : List String := (splitChars s.toList).map String.ofList

/-- `KeySplitter`: the parent nodes and the leaf. -/
def keySplitter (s : String) : List String × String :=
  let arr := split s
  (arr.dropLast, arr.getLastD "")

/-- One component after another, as `path.Clean` keeps them; `kept` is reversed. -/
def cleanParts (rooted : Bool) (kept : List String) : List String → List String
  | [] => kept.reverse
  | part :: rest =>
      if part = "" ∨ part = "." then cleanParts rooted kept rest
      else if part = ".." then
        match kept with
        | last :: kept' =>
            if last = ".." then cleanParts rooted (".." :: kept) rest
            else cleanParts rooted kept' rest
        | [] => cleanParts rooted (if rooted then [] else [".."]) rest
      else cleanParts rooted (part :: kept) rest

/-- `path.Clean`. -/
def pathClean (path : String) : String :=
  let rooted := path.toList.head? = some '/'
  let cleaned := "/".intercalate (cleanParts rooted [] (split path))
  if rooted then "/" ++ cleaned else if cleaned = "" then "." else cleaned

/-- `path.Join` of two elements. -/
def pathJoin (a b : String) : String :=
  match [a, b].filter (· ≠ "") with
  | [] => ""
  | elems => pathClean ("/".intercalate elems)

/-- `unicode.IsSpace`. -/
def isSpace (c : Char) : Bool :=
  c.val ∈ ([0x09, 0x0a, 0x0b, 0x0c, 0x0d, 0x20, 0x85, 0xa0, 0x1680, 0x2028, 0x2029, 0x202f,
    0x205f, 0x3000] : List UInt32) || (0x2000 ≤ c.val && c.val ≤ 0x200a)

/-- Nothing is left of the leaf after `strings.TrimSpace`. -/
def isEmptyLeaf (leaf : String) : Bool := leaf.toList.all isSpace

/-- The loop of `locateBucket`, from node `idx` on, with `buk` the bucket so far;
nil makes it break, after the check of the next node. -/
def locateNodes (create : Bool) (tx : Store) (buk : Option Bucket) (idx : Nat) :
    List String → Except GoError (Store × Option Bucket)
  | [] => .ok (tx, buk)
  | node :: rest =>
      if node = "" then .error ErrEmptyNode
      else if idx = 0 then
        match Bolt.bucket tx [] node with
        | some b => locateNodes create tx (some b) (idx + 1) rest
        | none =>
            if create then
              match Bolt.createBucket tx [] node with
              | .error err => .error err
              | .ok (tx, b) => locateNodes create tx (some b) (idx + 1) rest
            else locateNodes create tx none (idx + 1) rest
      else
        match buk with
        | none => .ok (tx, none)
        | some b =>
            match Bolt.bucket tx b node with
            | some b₂ => locateNodes create tx (some b₂) (idx + 1) rest
            | none =>
                if create then
                  match Bolt.createBucket tx b node with
                  | .error err => .error err
                  | .ok (tx, b₂) => locateNodes create tx (some b₂) (idx + 1) rest
                else locateNodes create tx none (idx + 1) rest

def locateBucket (tx : Store) (key : String) (createBucketNotFound : Bool) :
    Except GoError (Store × Bucket × String) :=
  let (nodes, leaf) := keySplitter key
  if nodes = [] then .error ErrNoParentBucket
  else if isEmptyLeaf leaf then .error ErrEmptyLeaf
  else match locateNodes createBucketNotFound tx none 0 nodes with
    | .error err => .error err
    | .ok (_, none) => .error ErrNoSuchBucket
    | .ok (tx, some buk) => .ok (tx, buk, leaf)

def getKV (db : Store) (key : String) (dir : Bool) : Except GoError Entity :=
  match locateBucket db key false with
  | .error err => .error err
  | .ok (tx, buk, leaf) =>
      if dir then
        match Bolt.bucket tx buk leaf with
        | some _ => .ok { key := key }
        | none => .error ErrNoSuchBucket
      else
        match Bolt.get tx buk leaf with
        | some d => .ok d
        | none => .error ErrNotFound

/-- `SetKV`; an error of the `Batch` function rolls the database back. -/
def setKV (db : Store) (key : String) (val : Entity) (dir : Bool) : Except GoError Store :=
  match locateBucket db key true with
  | .error err => .error err
  | .ok (tx, bucket, leaf) =>
      if dir then Bolt.createBucketIfNotExists tx bucket leaf else Bolt.put tx bucket leaf val

def unsetBatch (db : Store) (key : String) (dir : Bool) : Except GoError Store :=
  match locateBucket db key false with
  | .error err => .error err
  | .ok (tx, bucket, leaf) =>
      if dir then Bolt.deleteBucket tx bucket leaf else Bolt.delete tx bucket leaf

/-- `UnsetKV`: a missing bucket on the way, or at the key, is no error. -/
def unsetKV (db : Store) (key : String) (dir : Bool) : Except GoError Store :=
  match unsetBatch db key dir with
  | .error err =>
      if err.errorsIs Bolt.ErrBucketNotFound || err.errorsIs ErrNoSuchBucket then .ok db
      else .error err
  | .ok tx => .ok tx

/-! ## Ranges -/

structure RangeResult where
  items : List Entity
  hasMore : Bool
  nextSeekKey : String
  expiredKeys : List String
  deriving DecidableEq, Repr

/-- The rows the cursor of `Range` will visit. -/
def rangeRows (db : Store) (key seek : String) : Except GoError (List (String × Cell Entity)) :=
  let located : Except GoError (Option Bucket) :=
    match locateBucket db key false with
    | .error err =>
        if err.errorsIs ErrNoParentBucket then .ok (Bolt.bucket db [] key)
        else .error (.errorf "range.locateBucket: " err)
    | .ok (tx, bucket, leaf) => .ok (Bolt.bucket tx bucket leaf)
  match located with
  | .error err => .error err
  | .ok none => .error (.errorf "range.locateLeafBuck: " ErrNoSuchBucket)
  | .ok (some bucket) =>
      .ok ((Bolt.cursor db bucket).dropWhile fun row => seek ≠ "" && row.1 < seek)

/-- The loop of `Range` at `now`: the items, the expired entities as they are
stored, and the rows left when the limit is reached. -/
def rangeScan (now : Int) (key : String) (limit : Nat) :
    List (String × Cell Entity) → List Entity × List Entity × List (String × Cell Entity)
  | [] => ([], [], [])
  | (k, c) :: rows =>
      if limit = 0 then ([], [], (k, c) :: rows)
      else match c with
        | .dir =>
            let (items, expired, rest) := rangeScan now key (limit - 1) rows
            ({ key := pathJoin key k } :: items, expired, rest)
        | .val e =>
            match entityExpired now e with
            | (true, _) =>
                let (items, expired, rest) := rangeScan now key limit rows
                (items, e :: expired, rest)
            | (false, e') =>
                let (items, expired, rest) := rangeScan now key (limit - 1) rows
                (e' :: items, expired, rest)

def rangeResult (now : Int) (key : String) (limit : Nat) (rows : List (String × Cell Entity)) :
    RangeResult :=
  let (items, expired, rest) := rangeScan now key limit rows
  { items := items
    hasMore := rest ≠ []
    nextSeekKey := (rest.head?.map (·.1)).getD ""
    expiredKeys := expired.map (·.key) }

end Cassem.KV
