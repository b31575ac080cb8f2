import Mathlib.Data.List.DropRight
import Mathlib.Logic.Function.Basic

/-!
# Resolving paths

`virtual_file_ex`, `tsrm_realpath_r` and the realpath cache of `zend_virtual_cwd.c` on absolute
paths (the POSIX part).

All of these have `start == 1`, so a path is kept here without its first slash. The buffer that the
recursive calls share is their result. `link_is_dir` is a part of the result too; it is 0 where the
source does not set it, as the callers that read it have it. `lstat` and `readlink` are functions of
the path: the file system does not change.
-/

namespace Phpce.Realpath

abbrev Path := List UInt8

def slash : UInt8 := 47

def dot : UInt8 := 46

/-- `PATH_MAX` -/
def MAXPATHLEN : Nat := 4096

def LINK_MAX : Nat := 32

inductive UseRealpath where
  -- expand "." and ".." but dont resolve symlinks
  | expand
  -- resolve symlinks if file is exist otherwise expand
  | filepath
  -- call realpath(), resolve symlinks. File must exist
  | realpath
  deriving DecidableEq, Repr

/-- What `lstat` tells of a file. -/
inductive FileType where
  | dir
  | link
  | other
  deriving DecidableEq, Repr

structure FileSystem where
  lstat : Path → Option FileType
  -- what the link holds, as it is
  readlink : Path → Option (List UInt8)

/-! ## The cache -/

structure RealpathCacheBucket where
  key : UInt64
  path : Path
  realpath : Path
  isDir : Bool
  expires : Int
  deriving DecidableEq, Repr

/-- The chains, and `CWDG(realpath_cache_size)`, `CWDG(realpath_cache_size_limit)` and
`CWDG(realpath_cache_ttl)`. -/
structure RealpathCache where
  chain : UInt64 → List RealpathCacheBucket
  size : Int
  sizeLimit : Int
  ttl : Int

/-- `char` is signed. -/
def realpathCacheKey (path : Path) : UInt64 :=
  (slash :: path).foldl (fun h c => (h * 16777619) ^^^ c.toInt8.toInt64.toUInt64) 2166136261

/-- `sizeof(realpath_cache_bucket)` -/
def sizeofBucket : Int := 56

def bucketSize (path realpath : Path) : Int :=
  sizeofBucket + (path.length + 2) + if path = realpath then 0 else realpath.length + 2

namespace RealpathCache

def realpathCacheAdd (c : RealpathCache) (path realpath : Path) (isDir : Bool) (t : Int) :
    RealpathCache :=
  let size := bucketSize path realpath
  if c.size + size ≤ c.sizeLimit then
    let key := realpathCacheKey path
    let bucket := { key, path, realpath, isDir, expires := t + c.ttl }
    let n := key % 1024
    { c with chain := Function.update c.chain n (bucket :: c.chain n), size := c.size + size }
  else c

/-- The loop of `realpath_cache_find`: the entry, the chain without the expired entries that were
met, and the bytes that these took. -/
def findIn (key : UInt64) (path : Path) (ttl t : Int) :
    List RealpathCacheBucket → Option RealpathCacheBucket × List RealpathCacheBucket × Int
  | [] => (none, [], 0)
  | bucket :: next =>
      if ttl ≠ 0 ∧ bucket.expires < t then
        let (found, rest, freed) := findIn key path ttl t next
        (found, rest, freed + bucketSize bucket.path bucket.realpath)
      else if key = bucket.key ∧ path = bucket.path then (some bucket, bucket :: next, 0)
      else
        let (found, rest, freed) := findIn key path ttl t next
        (found, bucket :: rest, freed)

def realpathCacheFind (c : RealpathCache) (path : Path) (t : Int) :
    Option RealpathCacheBucket × RealpathCache :=
  let key := realpathCacheKey path
  let n := key % 1024
  let (found, rest, freed) := findIn key path c.ttl t (c.chain n)
  (found, { c with chain := Function.update c.chain n rest, size := c.size - freed })

def empty (sizeLimit ttl : Int) : RealpathCache where
  chain _ := []
  size := 0
  sizeLimit := sizeLimit
  ttl := ttl

end RealpathCache

/-! ## Components -/

/-- `path[i .. len)`, the last component. -/
def lastName (path : Path) : Path := path.rtakeWhile (· ≠ slash)

/-- `path[start .. i)` -/
def leading (path : Path) : Path := path.rdropWhile (· ≠ slash)

/-- `path[start .. i - 1)`, without the slash in front of the last component. -/
def parent (path : Path) : Path := (leading path).dropLast

/-- The name behind the resolved directory. -/
def join (dir name : Path) : Path := if dir = [] then name else dir ++ slash :: name

theorem length_leading_le (path : Path) : (leading path).length ≤ path.length :=
  (List.rdropWhile_prefix (· ≠ slash) path).length_le

theorem length_parent_lt {path : Path} (h : path ≠ []) : (parent path).length < path.length := by
  have hpos : 0 < path.length := List.length_pos_iff.mpr h
  have hle := length_leading_le path
  rw [parent, List.length_dropLast]
  omega

/-- The path to go on with at a link, and `none` where it does not fit into the buffer. -/
def linkTarget (path : Path) (target : List UInt8) : Option Path :=
  if target.head? = some slash then some target.tail
  else if (leading path).length + 1 + target.length ≥ MAXPATHLEN - 1 then none
  else some (leading path ++ target)

/-- The resolved directory and the name, and `none` where they do not fit into the buffer. -/
def appendName (name dir : Path) : Option Path :=
  if (join dir name).length + 1 ≥ MAXPATHLEN - 1 then none else some (join dir name)

/-! ## The resolution -/

/-- The resolved path with `link_is_dir`, and `none` for -1. -/
abbrev Resolved := Option (Path × Bool)

structure Result where
  resolved : Resolved
  ll : Nat
  cache : RealpathCache

def Result.save (res : Result) (path : Path) (t : Int) : Result :=
  match res.resolved with
  | none => res
  | some (realpath, directory) =>
      if res.cache.sizeLimit ≠ 0 then
        { res with cache := res.cache.realpathCacheAdd path realpath directory t }
      else res

def tsrmRealpathR (fs : FileSystem) (t : Int) (path : Path) (ll : Nat) (useRealpath : UseRealpath)
    (isDir : Bool) (c : RealpathCache) : Result :=
  if path = [] then ⟨some ([], true), ll, c⟩
  else if lastName path = [] ∨ lastName path = [dot] then
    -- remove double slashes and '.'
    tsrmRealpathR fs t (parent path) ll useRealpath true c
  else if lastName path = [dot, dot] then
    -- remove '..' and previous directory
    if parent path = [] then ⟨some ([], true), ll, c⟩
    else
      let res := tsrmRealpathR fs t (parent path) ll useRealpath true c
      { res with resolved := res.resolved.map fun r => (parent r.1, true) }
  else
    let save := useRealpath ≠ .expand
    let (bucket, c) :=
      if save ∧ c.sizeLimit ≠ 0 then c.realpathCacheFind path t else (none, c)
    match bucket with
    | some bucket =>
        if isDir && !bucket.isDir then ⟨none, ll, c⟩
        else ⟨some (bucket.realpath, bucket.isDir), ll, c⟩
    | none =>
        match if save then fs.lstat path else none with
        | none =>
            if useRealpath = .realpath then ⟨none, ll, c⟩
            else if parent path = [] then
              ⟨(appendName (lastName path) []).map fun p => (p, false), ll, c⟩
            else
              let res := tsrmRealpathR fs t (parent path) ll useRealpath true c
              { res with
                resolved := res.resolved.bind fun r =>
                  (appendName (lastName path) r.1).map fun p => (p, false) }
        | some .link =>
            if hll : LINK_MAX < ll + 1 then ⟨none, ll + 1, c⟩
            else
              match ((fs.readlink path).map (·.take MAXPATHLEN)).bind (linkTarget path) with
              | none => ⟨none, ll + 1, c⟩
              | some target =>
                  (tsrmRealpathR fs t target (ll + 1) useRealpath isDir c).save path t
        | some type =>
            let directory := decide (type = .dir)
            if isDir && !directory then ⟨none, ll, c⟩
            else
              -- some leading directories may be unaccessable
              let res :=
                if parent path = [] then ⟨some ([], true), ll, c⟩
                else tsrmRealpathR fs t (parent path) ll .filepath true c
              let res := { res with
                resolved := res.resolved.bind fun r =>
                  (appendName (lastName path) r.1).map fun p => (p, directory) }
              res.save path t
termination_by (LINK_MAX + 1 - ll, path.length)
decreasing_by
  all_goals first
    | exact .right _ (length_parent_lt ‹_›)
    | exact .left _ _ (by omega)

/-- A call of `virtual_file_ex` with an absolute path, and the time at which it is made. -/
structure Call where
  path : Path
  verifyPath : Option (Path → Bool)
  useRealpath : UseRealpath
  time : Int

def endsInSlash (path : Path) : Bool := (slash :: path).getLast? = some slash

/-- What `virtual_file_ex` does with the resolved path; `verify_path` returns `true` for a
failure. -/
def finish (call : Call) (path : Path) : Option Path :=
  let addSlash := call.useRealpath ≠ .realpath ∧ endsInSlash call.path ∧ !endsInSlash path
  if addSlash ∧ path.length + 1 ≥ MAXPATHLEN - 1 then none
  else
    let path := if addSlash then path ++ [slash] else path
    match call.verifyPath with
    | some verifyPath => if verifyPath path then none else some path
    | none => some path

/-- The path that the state is left with, `none` for a failure. -/
def virtualFileEx (fs : FileSystem) (c : RealpathCache) (call : Call) :
    Option Path × RealpathCache :=
  if call.path.length + 1 ≥ MAXPATHLEN - 1 then (none, c)
  else
    let t := if c.ttl ≠ 0 then call.time else -1
    let res := tsrmRealpathR fs t call.path 0 call.useRealpath false c
    (res.resolved.bind fun r => finish call r.1, res.cache)

end Phpce.Realpath
