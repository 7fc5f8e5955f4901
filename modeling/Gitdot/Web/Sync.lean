/-
# The browser's cache of a repository

A web worker keeps a copy of a repository in the browser: the paths and the
blobs of the tree at `HEAD`, and the commits of the default branch. At each
sync it tells the server the commit and the time of the last one, and puts
what the server answers over what it has. It never removes anything, so a path
that has left the tree stays in the cache; and within an hour of the last sync
the server lists the commits by their own dates, so a commit that is older than
the last sync and was pushed after it does not come.

The cache agrees with the server after every sync of a run exactly if, at
every sync, the paths and the files of the tree that was synced last are still
there, and each commit that has come to be listed since is on the one page that
is asked for (`cache_converges_iff`).

Key definitions: `Tree`, `getRepositoryResources`, `process`, `Agrees`,
`Stays`, `Arrives`, `syncStep`, `Good`, `Kept`.
Key theorems: `putAll_nodup`, `mem_commits_iff`, `agrees_iff`,
`cache_converges_iff`.
-/
import Gitdot.Server.Commits
import Gitdot.Server.Authorization

namespace Gitdot
namespace Web

open Lib Keyed Listings Commits
open Auth (Time)

/-! ### Trees -/

/-- What is at a path of a tree, a file with its content and its encoding. -/
inductive TreeObject where
  | blob (content encoding : String)
  | tree
  | commit
  | unknown
  deriving DecidableEq

/-- `PathType`. -/
inductive PathType where
  | blob
  | tree
  | commit
  | unknown
  deriving DecidableEq

/-- `from_git2`. -/
def PathType.ofObject : TreeObject → PathType
  | .blob .. => .blob
  | .tree => .tree
  | .commit => .commit
  | .unknown => .unknown

/-- An entry met on the walk of a tree. -/
structure TreeEntry where
  path : String
  name : String
  sha : Sha
  object : TreeObject
  deriving DecidableEq

/-- The tree of a commit: one entry at a path. -/
structure Tree where
  entries : List TreeEntry
  nodup : (entries.map TreeEntry.path).Nodup

/-- The entry at a path. -/
def Tree.find (t : Tree) (path : String) : Option TreeEntry :=
  t.entries.find? fun e => decide (e.path = path)

/-! ### Resources -/

/-- `RepositoryPathResource`. -/
structure PathResource where
  path : String
  name : String
  pathType : PathType
  sha : Sha
  deriving DecidableEq

/-- `RepositoryPathsResource`. -/
structure PathsResource where
  refName : Sha
  commitSha : Sha
  entries : List PathResource
  deriving DecidableEq

/-- `RepositoryBlobResource`. -/
structure BlobResource where
  commitSha : Sha
  path : String
  sha : Sha
  content : String
  encoding : String
  deriving DecidableEq

def TreeEntry.resource (e : TreeEntry) : PathResource := ⟨e.path, e.name, .ofObject e.object, e.sha⟩

/-- `get_repo_paths`, at a commit by its id. -/
def getRepoPaths (t : Tree) (commit : Sha) : PathsResource :=
  ⟨commit, commit, t.entries.map TreeEntry.resource⟩

/-- `get_blob` and `blob_to_response`. -/
def getBlob (t : Tree) (commit : Sha) (path : String) : Option BlobResource :=
  (t.find path).bind fun e => match e.object with
    | .blob content encoding => some ⟨commit, path, e.sha, content, encoding⟩
    | _ => none

/-- `get_repo_blobs` of some paths at one commit, those that are no blobs left
out. -/
def getRepoBlobs (t : Tree) (commit : Sha) (paths : List String) : List BlobResource :=
  paths.filterMap (getBlob t commit)

/-! ### The server -/

/-- `GetRepositoryResourcesRequest`. -/
structure ResourcesRequest where
  lastCommit : Option Sha
  lastUpdated : Option Time
  deriving DecidableEq

/-- `RepositoryResourcesResource`. -/
structure Resources where
  lastCommit : Sha
  lastUpdated : Option Time
  paths : Option PathsResource
  blobs : Option (List BlobResource)
  commits : Option (List CommitRow)

/-- The errors of the endpoint. -/
inductive ResourcesError where
  | authorization (e : AuthorizationError)
  | git (e : GitError)
  | list (e : ListError)
  deriving DecidableEq

/-- A repository that a viewer syncs: the trees of its commits, its default ref,
and the JSON of the cursors. -/
structure Remote where
  trees : Sha → Tree
  payload : Payload
  defaultRef : String → String → Except GitError String
  owner : String
  repo : String
  viewer : Option Uuid

/-- What `HEAD` points to, and the rows. -/
structure Server where
  head : Option Sha
  store : ListingStore

/-- `Duration::hours(1)`. -/
def oneHour : Time := 3600 * 10 ^ 6

/-- The window of the commits that are asked for: from the last sync on, if that
was at most an hour ago. -/
def commitsWindow (lastUpdated : Option Time) (now : Time) : Option Time × Option Time :=
  match lastUpdated with
  | none => (none, none)
  | some last => if oneHour < now - last then (none, none) else (some last, some now)

section Server

variable (c : Remote)

/-- `get_repository_resources`. -/
def getRepositoryResources (s : Server) (now : Time) (request : ResourcesRequest) :
    Except ResourcesError Resources := do
  (s.store.world.verifyAuthorizedForRepository ⟨c.viewer, c.owner, c.repo, .read⟩).mapError
    .authorization
  let head ← okOr s.head (.git (.git2Error "reference not found"))
  let window := commitsWindow request.lastUpdated now
  let commits ← (commitsPage c.payload s.store c.defaultRef ⟨now, now⟩ c.owner c.repo "HEAD"
    window.1 window.2 none none).mapError .list
  let paths := getRepoPaths (c.trees head) head
  let changed := request.lastCommit ≠ some head
  return {
    lastCommit := head
    lastUpdated := some now
    paths := if changed then some paths else none
    blobs := if changed then
      some (getRepoBlobs (c.trees head) head (paths.entries.map PathResource.path)) else none
    commits := some commits.data }

/-- The rows that are listed for the default branch when the clock says `now`,
in the window that a request without one has. -/
def branchCommits (store : ListingStore) (now : Time) : List CommitRow :=
  match store.world.getRepository c.owner c.repo,
    resolveRefName c.defaultRef c.owner c.repo "HEAD" with
  | some repository, .ok refName => commitsOn store repository.id refName unixEpoch now
  | _, _ => []

end Server

/-! ### The worker -/

/-- A row of the `paths` store. -/
structure CachedPath where
  refName : Sha
  commitSha : Sha
  entry : PathResource
  deriving DecidableEq

/-- `RepositoryMetadata`. -/
structure Metadata where
  lastCommit : Sha
  lastUpdated : Time
  deriving DecidableEq

/-- The object stores of the browser, for one repository. -/
structure Cache where
  paths : String → Option CachedPath
  blobs : String → Option BlobResource
  commits : Sha → Option CommitRow
  metadata : Option Metadata

def Cache.empty : Cache := ⟨fun _ => none, fun _ => none, fun _ => none, none⟩

section Puts

variable {α κ β : Type} [DecidableEq κ]

/-- `put`. -/
def put (store : κ → Option β) (key : κ) (value : β) : κ → Option β :=
  fun k => if k = key then some value else store k

/-- The rows put one after the other, each under its key. -/
def putAll (key : α → κ) (value : α → β) (rows : List α) (store : κ → Option β) : κ → Option β :=
  rows.foldl (fun store a => put store (key a) (value a)) store

end Puts

/-- `putPaths`. -/
def Cache.putPaths (cache : Cache) (paths : PathsResource) : Cache :=
  { cache with
    paths := putAll PathResource.path (fun e => ⟨paths.refName, paths.commitSha, e⟩) paths.entries
      cache.paths }

/-- `putBlobs`. -/
def Cache.putBlobs (cache : Cache) (blobs : List BlobResource) : Cache :=
  { cache with blobs := putAll BlobResource.path id blobs cache.blobs }

/-- `putCommit`, of one commit after the other. -/
def Cache.putCommits (cache : Cache) (commits : List CommitRow) : Cache :=
  { cache with commits := putAll CommitRow.sha id commits cache.commits }

/-- What the worker asks for. -/
def resourcesRequest (forceRefresh : Bool) (cache : Cache) : ResourcesRequest :=
  let metadata := if forceRefresh then none else cache.metadata
  ⟨metadata.map Metadata.lastCommit, metadata.map Metadata.lastUpdated⟩

/-- What the worker makes of an answer. `now` is the browser's clock. -/
def Cache.store (cache : Cache) (now : Time) (result : Resources) : Cache :=
  let cache := result.paths.elim cache cache.putPaths
  let cache := result.blobs.elim cache cache.putBlobs
  let cache := result.commits.elim cache cache.putCommits
  { cache with metadata := some ⟨result.lastCommit, result.lastUpdated.getD now⟩ }

/-- `process`, with the server's answer or without. -/
def process (c : Remote) (forceRefresh : Bool) (now : Time) (s : Server) (cache : Cache) :
    Option Cache :=
  match getRepositoryResources c s now (resourcesRequest forceRefresh cache) with
  | .ok result => some (cache.store now result)
  | .error _ => none

/-! ### Runs -/

/-- The server and the cache, and the commits that were listed at the last
sync. -/
structure SyncState where
  server : Server
  cache : Cache
  listed : List Sha

/-- What happens: `HEAD`'s branch is pushed to, the background task of a push
records its commits, or the worker syncs. -/
inductive SyncEvent where
  | push (tip : Sha)
  | record (push : PostReceive) (draw : Draw)
  | sync (forceRefresh : Bool) (now : Time)

section Runs

variable (c : Remote) (o : Objects) (client : Client)

/-- The store after the background task of a push. -/
def recorded (store : ListingStore) (push : PostReceive) (draw : Draw) : ListingStore :=
  match createCommits o client store draw (processPostReceive push) with
  | .ok out => out.2
  | .error _ => store

def syncStep : SyncEvent → SyncState → SyncState
  | .push tip, s => { s with server := { s.server with head := some tip } }
  | .record push draw, s =>
    { s with server := { s.server with store := recorded o client s.server.store push draw } }
  | .sync forceRefresh now, s =>
    match process c forceRefresh now s.server s.cache with
    | some cache => ⟨s.server, cache, (branchCommits c s.server.store now).map CommitRow.sha⟩
    | none => s

/-- The cached paths and blobs are those of the tree at the commit. -/
structure Agrees (t : Tree) (commit : Sha) (cache : Cache) : Prop where
  paths : ∀ path, cache.paths path = (t.find path).map fun e => ⟨commit, commit, e.resource⟩
  blobs : ∀ path, cache.blobs path = getBlob t commit path

/-- **The claim**, of a sync that gets through: the cache has the tree at the
commit that was returned, and every commit that the server lists. -/
def Good (s : SyncState) : SyncEvent → Prop
  | .sync forceRefresh now => ∀ cache, process c forceRefresh now s.server s.cache = some cache →
    (∃ m, cache.metadata = some m ∧ Agrees (c.trees m.lastCommit) m.lastCommit cache) ∧
      ∀ row ∈ branchCommits c s.server.store now, (cache.commits row.sha).isSome
  | _ => True

/-- Every path of one tree is in the other, and every file of it a file there. -/
structure Stays (old new : Tree) : Prop where
  paths : ∀ e ∈ old.entries, (new.find e.path).isSome
  files : ∀ e ∈ old.entries, PathType.ofObject e.object = .blob →
    ∃ e' ∈ new.find e.path, PathType.ofObject e'.object = .blob

/-- The row is dated in the window, and fewer than the limit of a page are newer
there. -/
def Arrives (store : ListingStore) (window : Option Time × Option Time) (now : Time)
    (row : CommitRow) : Prop :=
  window.1.getD unixEpoch ≤ row.createdAt ∧
    ((commitsOn store row.repoId row.refName (window.1.getD unixEpoch) (window.2.getD now)).filter
      fun newer => decide (row.cursor < newer.cursor)).length < Ci.defaultPerPageLimit

/-- **The condition**, of a sync that gets through: what was in the tree at the
last sync is still there, and the commits that have come to be listed since are
dated after it if it was at most an hour ago, and not too many. -/
def Kept (s : SyncState) : SyncEvent → Prop
  | .sync forceRefresh now => (process c forceRefresh now s.server s.cache).isSome →
    (∀ m ∈ s.cache.metadata, ∀ head ∈ s.server.head, Stays (c.trees m.lastCommit) (c.trees head)) ∧
      ∀ row ∈ branchCommits c s.server.store now, row.sha ∉ s.listed →
        Arrives s.server.store
          (commitsWindow (resourcesRequest forceRefresh s.cache).lastUpdated now) now row
  | _ => True

/-- The server's clock is past the epoch and does not go back from one sync to
the next. -/
def Forward (s : SyncState) : SyncEvent → Prop
  | .sync _ now => unixEpoch ≤ now ∧ ∀ m ∈ s.cache.metadata, m.lastUpdated ≤ now
  | _ => True

instance (s : SyncState) : (e : SyncEvent) → Decidable (Forward s e)
  | .push _ => .isTrue trivial
  | .record .. => .isTrue trivial
  | .sync _ now => inferInstanceAs (Decidable (unixEpoch ≤ now ∧ ∀ m ∈ s.cache.metadata,
      m.lastUpdated ≤ now))

/-- Before the first sync. The table has its unique index. -/
def Unsynced (s : SyncState) : Prop :=
  s.cache = .empty ∧ s.listed = [] ∧ OnePerCommit s.server.store.commits

end Runs

/-! ### What is put -/

section Puts

variable {α κ β : Type} [DecidableEq κ] {key : α → κ} {value : α → β}

theorem put_self (store : κ → Option β) (k : κ) (v : β) : put store k v k = some v := if_pos rfl

theorem put_of_ne {store : κ → Option β} {k j : κ} {v : β} (h : j ≠ k) : put store k v j = store j :=
  if_neg h

/-- A key is there if a row was put under it, or it was there before. -/
theorem isSome_putAll {k : κ} : ∀ {rows : List α} {store : κ → Option β},
    (putAll key value rows store k).isSome ↔ (∃ a ∈ rows, key a = k) ∨ (store k).isSome
  | [], store => by simp [putAll]
  | a :: rows, store => by
    have ih : (putAll key value rows (put store (key a) (value a)) k).isSome ↔
        (∃ b ∈ rows, key b = k) ∨ (put store (key a) (value a) k).isSome := isSome_putAll
    change (putAll key value rows (put store (key a) (value a)) k).isSome ↔ _
    rw [ih]
    rcases eq_or_ne k (key a) with rfl | hne
    · simp [put_self]
    · rw [put_of_ne hne]
      simp [hne.symm]

/-- Rows of different keys do not replace each other. -/
theorem putAll_nodup {k : κ} : ∀ {rows : List α} {store : κ → Option β}, (rows.map key).Nodup →
    putAll key value rows store k =
      ((rows.find? fun a => decide (key a = k)).map value).or (store k)
  | [], store, _ => by simp [putAll]
  | a :: rows, store, hn => by
    obtain ⟨ha, hn⟩ := List.nodup_cons.mp (List.map_cons ▸ hn)
    change putAll key value rows (put store (key a) (value a)) k = _
    rw [putAll_nodup hn]
    rcases eq_or_ne (key a) k with rfl | hne
    · have hnone : rows.find? (fun b => decide (key b = key a)) = none := by
        refine List.find?_eq_none.mpr fun b hb heq => ha ?_
        exact List.mem_map.mpr ⟨b, hb, of_decide_eq_true heq⟩
      simp [hnone, put_self]
    · rw [put_of_ne hne.symm, List.find?_cons_of_neg (by simpa using hne)]

end Puts

/-! ### The tree in the cache -/

section Tree

variable {t u : Tree} {commit head : Sha} {cache : Cache} {path : String}

theorem Tree.find_eq_some {e : TreeEntry} : t.find path = some e ↔ e ∈ t.entries ∧ e.path = path := by
  constructor
  · intro h
    exact ⟨List.mem_of_find?_eq_some h, by simpa using List.find?_some h⟩
  · rintro ⟨he, rfl⟩
    cases hfind : t.find e.path with
    | none => exact absurd (decide_eq_true rfl) (List.find?_eq_none.mp hfind e he)
    | some e' =>
      have he' := List.mem_of_find?_eq_some hfind
      have hpath : e'.path = e.path := by simpa using List.find?_some hfind
      rw [List.inj_on_of_nodup_map t.nodup he' he hpath]

/-- The walk meets the entry that is at a path. -/
theorem find?_resource : (t.entries.map TreeEntry.resource).find? (fun r => decide (r.path = path)) =
    (t.find path).map TreeEntry.resource := by
  rw [List.find?_map]
  rfl

theorem getBlob_path {b : BlobResource} (h : getBlob t commit path = some b) : b.path = path := by
  obtain ⟨e, -, he⟩ := Option.bind_eq_some_iff.mp h
  cases hobject : e.object with
  | blob content encoding =>
    rw [hobject] at he
    cases he
    rfl
  | _ =>
    rw [hobject] at he
    cases he

theorem isSome_getBlob : (getBlob t commit path).isSome ↔
    ∃ e ∈ t.find path, PathType.ofObject e.object = .blob := by
  unfold getBlob
  cases t.find path with
  | none => simp
  | some e => cases hobject : e.object <;> simp [hobject, PathType.ofObject]

theorem nodup_getRepoBlobs {paths : List String} (hn : paths.Nodup) :
    ((getRepoBlobs t commit paths).map BlobResource.path).Nodup := by
  have hsub : ((getRepoBlobs t commit paths).map BlobResource.path).Sublist paths := by
    induction paths with
    | nil => exact .slnil
    | cons path paths ih =>
      unfold getRepoBlobs at ih ⊢
      cases hblob : getBlob t commit path with
      | none =>
        rw [List.filterMap_cons_none hblob]
        exact (ih hn.of_cons).cons _
      | some b =>
        rw [List.filterMap_cons_some hblob, List.map_cons, getBlob_path hblob]
        exact (ih hn.of_cons).cons_cons _
  exact hn.sublist hsub

/-- The blobs of all paths are the files of the tree. -/
theorem find?_getRepoBlobs : ((getRepoBlobs t commit (t.entries.map TreeEntry.path)).find?
    fun b => decide (b.path = path)) = getBlob t commit path := by
  have hmem : ∀ {b : BlobResource}, b ∈ getRepoBlobs t commit (t.entries.map TreeEntry.path) →
      getBlob t commit b.path = some b := by
    intro b hb
    obtain ⟨q, -, hq⟩ := List.mem_filterMap.mp hb
    rw [getBlob_path hq]
    exact hq
  cases hblob : getBlob t commit path with
  | none =>
    refine List.find?_eq_none.mpr fun b hb heq => ?_
    have hsome := hmem hb
    rw [of_decide_eq_true heq, hblob] at hsome
    cases hsome
  | some b =>
    have hpath := getBlob_path hblob
    have hin : b ∈ getRepoBlobs t commit (t.entries.map TreeEntry.path) := by
      obtain ⟨e, he, -⟩ := Option.bind_eq_some_iff.mp hblob
      obtain ⟨he, hep⟩ := Tree.find_eq_some.mp he
      exact List.mem_filterMap.mpr ⟨path, List.mem_map.mpr ⟨e, he, hep⟩, hblob⟩
    cases hfind : (getRepoBlobs t commit (t.entries.map TreeEntry.path)).find?
        (fun b => decide (b.path = path)) with
    | none => exact absurd hpath (by simpa using List.find?_eq_none.mp hfind b hin)
    | some b' =>
      have hsome := hmem (List.mem_of_find?_eq_some hfind)
      have heq : b'.path = path := by simpa using List.find?_some hfind
      rw [heq, hblob] at hsome
      exact hsome.symm

/-- The cache after the paths and blobs of a tree were put over it. -/
theorem putPaths_paths : (cache.putPaths (getRepoPaths t head)).paths path =
    ((t.find path).map fun e => ⟨head, head, e.resource⟩).or (cache.paths path) := by
  have hn : ((t.entries.map TreeEntry.resource).map PathResource.path).Nodup := by
    rw [List.map_map]
    exact t.nodup
  refine (putAll_nodup hn).trans ?_
  rw [find?_resource, Option.map_map]
  rfl

theorem putBlobs_blobs : (cache.putBlobs (getRepoBlobs t head (t.entries.map TreeEntry.path))).blobs
    path = (getBlob t head path).or (cache.blobs path) := by
  refine (putAll_nodup (nodup_getRepoBlobs t.nodup)).trans ?_
  rw [find?_getRepoBlobs, Option.map_id]
  rfl

/-- **What stays.** The cache of one tree with another put over it is that of the
other, exactly if what was in the one is still there. -/
theorem agrees_iff {new : Cache} (hold : Agrees t commit cache)
    (hpaths : ∀ path, new.paths path =
      ((u.find path).map fun e => ⟨head, head, e.resource⟩).or (cache.paths path))
    (hblobs : ∀ path, new.blobs path = (getBlob u head path).or (cache.blobs path)) :
    Agrees u head new ↔ Stays t u := by
  constructor
  · intro h
    refine ⟨fun e he => ?_, fun e he hfile => ?_⟩
    · have heq := (hpaths e.path).symm.trans (h.paths e.path)
      rw [hold.paths, Tree.find_eq_some.mpr ⟨he, rfl⟩] at heq
      cases hfind : u.find e.path with
      | none =>
        rw [hfind] at heq
        cases heq
      | some e' => rfl
    · have heq := (hblobs e.path).symm.trans (h.blobs e.path)
      rw [hold.blobs] at heq
      have hthere : (getBlob t commit e.path).isSome :=
        isSome_getBlob.mpr ⟨e, Tree.find_eq_some.mpr ⟨he, rfl⟩, hfile⟩
      obtain ⟨b, hb⟩ := Option.isSome_iff_exists.mp hthere
      rw [hb] at heq
      suffices hnow : (getBlob u head e.path).isSome from isSome_getBlob.mp hnow
      cases hnew : getBlob u head e.path with
      | none =>
        rw [hnew] at heq
        cases heq
      | some b' => rfl
  · intro h
    refine ⟨fun path => ?_, fun path => ?_⟩
    · rw [hpaths path, hold.paths]
      cases hfind : u.find path with
      | some e => rfl
      | none =>
        cases hgone : t.find path with
        | none => rfl
        | some e =>
          obtain ⟨he, rfl⟩ := Tree.find_eq_some.mp hgone
          have hthere := h.paths e he
          rw [hfind] at hthere
          cases hthere
    · rw [hblobs path, hold.blobs]
      cases hfind : getBlob u head path with
      | some b => rfl
      | none =>
        cases hgone : getBlob t commit path with
        | none => rfl
        | some b =>
          obtain ⟨e, he, hfile⟩ := isSome_getBlob.mp (Option.isSome_iff_exists.mpr ⟨b, hgone⟩)
          obtain ⟨hmem, rfl⟩ := Tree.find_eq_some.mp he
          have hthere : (getBlob u head e.path).isSome := isSome_getBlob.mpr (h.files e hmem hfile)
          rw [hfind] at hthere
          cases hthere

end Tree

/-! ### The commits that come -/

section Commits

variable {c : Remote} {s : Server} {store store' : ListingStore} {now last : Time} {row : CommitRow}

theorem mem_branchCommits : row ∈ branchCommits c store now ↔ ∃ repository refName,
    store.world.getRepository c.owner c.repo = some repository ∧
      resolveRefName c.defaultRef c.owner c.repo "HEAD" = .ok refName ∧
        VisibleCommit store repository.id refName unixEpoch now row := by
  unfold branchCommits
  cases hrepository : store.world.getRepository c.owner c.repo with
  | none => simp
  | some repository =>
    cases href : resolveRefName c.defaultRef c.owner c.repo "HEAD" with
    | error e => simp
    | ok refName => simp [mem_commitsOn]

/-- They are what following the cursors of the server's listing gives. -/
theorem enumerates_branchCommits (hreads : ∀ x ∈ store.commits.rows, c.payload.Reads x.cursor)
    {repository : Repository} {refName : String}
    (hrepository : store.world.getRepository c.owner c.repo = some repository)
    (href : resolveRefName c.defaultRef c.owner c.repo "HEAD" = .ok refName) (limit : Option ℕ) :
    Enumerates (commitsPage c.payload store c.defaultRef ⟨now, now⟩ c.owner c.repo "HEAD" none none
      limit) CommitRow.cursor (fun row => row ∈ branchCommits c store now) := by
  refine (enumerates_paged (pages_commitsPage limit (by simp) hrepository href) (one_le_clampLimit limit)
    (nodup_commitsOn _ _ _ _) fun x hx => hreads x (mem_commitsOn.mp hx).1).congr fun x => ?_
  simp [branchCommits, hrepository, href]

/-- Later, and with more rows, more is listed. -/
theorem branchCommits_mono (hworld : store'.world = store.world)
    (hrows : ∀ x ∈ store.commits.rows, x ∈ store'.commits.rows) (hle : last ≤ now)
    (h : row ∈ branchCommits c store last) : row ∈ branchCommits c store' now := by
  obtain ⟨repository, refName, hrepository, href, hrow, hid, hname, hstart, hstop⟩ :=
    mem_branchCommits.mp h
  exact mem_branchCommits.mpr ⟨repository, refName, hworld ▸ hrepository, href, hrows row hrow, hid,
    hname, hstart, hstop.trans hle⟩

/-- The window ends now, and starts at the epoch or at the last sync. -/
theorem commitsWindow_cases (lastUpdated : Option Time) (now : Time) :
    (commitsWindow lastUpdated now).2.getD now = now ∧
      ((commitsWindow lastUpdated now).2.isSome → (commitsWindow lastUpdated now).1.isSome) ∧
        ((commitsWindow lastUpdated now).1 = none ∨
          (commitsWindow lastUpdated now).1 = lastUpdated) := by
  unfold commitsWindow
  cases lastUpdated with
  | none => exact ⟨rfl, nofun, .inl rfl⟩
  | some last =>
    dsimp only
    split_ifs
    · exact ⟨rfl, nofun, .inl rfl⟩
    · exact ⟨rfl, fun _ => rfl, .inr rfl⟩

/-- What a page of the window holds, of the rows that are listed for the branch. -/
theorem mem_commits_iff {window : Option Time × Option Time} {page : Page CommitRow}
    (hstop : window.2.getD now = now) (hwindow : window.2.isSome → window.1.isSome)
    (hpage : commitsPage c.payload store c.defaultRef ⟨now, now⟩ c.owner c.repo "HEAD" window.1
      window.2 none none = .ok page)
    (hrow : row ∈ branchCommits c store now) :
    row ∈ page.data ↔ Arrives store window now row := by
  obtain ⟨repository, refName, hrepository, href, hmem, hid, hname, -, hend⟩ :=
    mem_branchCommits.mp hrow
  rw [pages_commitsPage none hwindow hrepository href none] at hpage
  obtain rfl := Except.ok.inj hpage
  have hall : below CommitRow.cursor none (commitsOn store repository.id refName
      (window.1.getD unixEpoch) (window.2.getD now)) = commitsOn store repository.id refName
        (window.1.getD unixEpoch) (window.2.getD now) := List.filter_eq_self.mpr fun _ _ => rfl
  refine (mem_page (nodup_commitsOn _ _ _ _)).trans ?_
  unfold OnPage Arrives
  rw [hall, mem_commitsOn, hid, hname, hstop]
  refine and_congr_left fun _ => ⟨fun h => h.2.2.2.1, fun h => ⟨hmem, hid, hname, h, hend⟩⟩

/-- A page of a window from the epoch on holds rows that are listed. -/
theorem mem_branchCommits_of_page {window : Option Time × Option Time} {page : Page CommitRow}
    (hstop : window.2.getD now = now) (hwindow : window.2.isSome → window.1.isSome)
    (hstart : unixEpoch ≤ window.1.getD unixEpoch)
    (hpage : commitsPage c.payload store c.defaultRef ⟨now, now⟩ c.owner c.repo "HEAD" window.1
      window.2 none none = .ok page)
    (hrow : row ∈ page.data) : row ∈ branchCommits c store now := by
  obtain ⟨request, hrequest, hlist⟩ := bind_eq_ok.mp hpage
  obtain ⟨repository, hrepository, hlist⟩ := bind_eq_ok.mp hlist
  obtain ⟨refName, href, -⟩ := bind_eq_ok.mp hlist
  have hrequest : request.owner = c.owner ∧ request.repo = c.repo ∧ request.refName = "HEAD" := by
    unfold ListRepositoryCommitsRequest.new at hrequest
    split_ifs at hrequest
    obtain ⟨cursor, -, h⟩ := bind_eq_ok.mp hrequest
    cases h
    exact ⟨rfl, rfl, rfl⟩
  obtain ⟨howner, hrepo, hname⟩ := hrequest
  rw [howner, hrepo] at hrepository
  rw [howner, hrepo, hname] at href
  have hrepository := okOr_eq_ok.mp hrepository
  rw [pages_commitsPage none hwindow hrepository href none] at hpage
  obtain rfl := Except.ok.inj hpage
  obtain ⟨hin, -⟩ := (mem_page (nodup_commitsOn _ _ _ _)).mp hrow
  obtain ⟨hmem, hid, hrefName, hfrom, hto⟩ := mem_commitsOn.mp (mem_below hin)
  exact mem_branchCommits.mpr ⟨repository, refName, hrepository, href, hmem, hid, hrefName,
    hstart.trans hfrom, hstop ▸ hto⟩

end Commits

/-! ### One sync -/

section Sync

variable {c : Remote} {o : Objects} {client : Client} {s : SyncState} {now : Time}
  {forceRefresh : Bool} {cache : Cache}

/-- What a sync that gets through has made of the cache. -/
structure Synced (c : Remote) (forceRefresh : Bool) (now : Time) (s : SyncState) (cache : Cache)
    (head : Sha) (page : Page CommitRow) : Prop where
  head_eq : s.server.head = some head
  page_eq : commitsPage c.payload s.server.store c.defaultRef ⟨now, now⟩ c.owner c.repo "HEAD"
    (commitsWindow (resourcesRequest forceRefresh s.cache).lastUpdated now).1
    (commitsWindow (resourcesRequest forceRefresh s.cache).lastUpdated now).2 none none = .ok page
  metadata : cache.metadata = some ⟨head, now⟩
  commits : cache.commits = putAll CommitRow.sha id page.data s.cache.commits
  same : (resourcesRequest forceRefresh s.cache).lastCommit = some head →
    cache.paths = s.cache.paths ∧ cache.blobs = s.cache.blobs
  paths : (resourcesRequest forceRefresh s.cache).lastCommit ≠ some head → ∀ path,
    cache.paths path = (((c.trees head).find path).map fun e => ⟨head, head, e.resource⟩).or
      (s.cache.paths path)
  blobs : (resourcesRequest forceRefresh s.cache).lastCommit ≠ some head → ∀ path,
    cache.blobs path = (getBlob (c.trees head) head path).or (s.cache.blobs path)

theorem synced_of_process (h : process c forceRefresh now s.server s.cache = some cache) :
    ∃ head page, Synced c forceRefresh now s cache head page := by
  unfold process at h
  cases hresult : getRepositoryResources c s.server now (resourcesRequest forceRefresh s.cache) with
  | error e =>
    rw [hresult] at h
    cases h
  | ok result =>
    rw [hresult] at h
    obtain rfl := Option.some.inj h
    obtain ⟨-, -, hresult⟩ := bind_eq_ok.mp hresult
    obtain ⟨head, hhead, hresult⟩ := bind_eq_ok.mp hresult
    obtain ⟨page, hpage, hresult⟩ := bind_eq_ok.mp hresult
    have hpaths : (getRepoPaths (c.trees head) head).entries.map PathResource.path =
        (c.trees head).entries.map TreeEntry.path := by
      simp [getRepoPaths, TreeEntry.resource]
    obtain rfl := Except.ok.inj hresult
    refine ⟨head, page, okOr_eq_ok.mp hhead, mapError_eq_ok.mp hpage, rfl, ?_, ?_, ?_, ?_⟩
    · by_cases hsame : (resourcesRequest forceRefresh s.cache).lastCommit = some head <;>
        simp [Cache.store, hsame, Cache.putCommits, Cache.putPaths, Cache.putBlobs]
    · intro hsame
      simp [Cache.store, hsame, Cache.putCommits]
    · intro hne path
      simp only [Cache.store, hne, ne_eq, not_false_eq_true, if_true, Option.elim_some]
      exact putPaths_paths
    · intro hne path
      simp only [Cache.store, hne, ne_eq, not_false_eq_true, if_true, Option.elim_some, hpaths]
      exact putBlobs_blobs

theorem Stays.refl (t : Tree) : Stays t t := by
  refine ⟨fun e he => ?_, fun e he hfile => ?_⟩
  · rw [Tree.find_eq_some.mpr ⟨he, rfl⟩]
    rfl
  · exact ⟨e, Tree.find_eq_some.mpr ⟨he, rfl⟩, hfile⟩

/-- What holds between syncs, as long as every sync was good. -/
structure Consistent (c : Remote) (s : SyncState) : Prop where
  one : OnePerCommit s.server.store.commits
  unsynced : s.cache.metadata = none → s.cache = .empty
  agrees : ∀ m, s.cache.metadata = some m →
    unixEpoch ≤ m.lastUpdated ∧ Agrees (c.trees m.lastCommit) m.lastCommit s.cache
  listed : ∀ m, s.cache.metadata = some m → ∀ sha ∈ s.listed,
    ∃ row ∈ branchCommits c s.server.store m.lastUpdated, row.sha = sha
  commits : ∀ sha, (s.cache.commits sha).isSome ↔ sha ∈ s.listed

theorem Unsynced.consistent (h : Unsynced s) : Consistent c s := by
  obtain ⟨hcache, hlisted, hone⟩ := h
  have hnone : s.cache.metadata = none := by rw [hcache]; rfl
  refine ⟨hone, fun _ => hcache, ?_, ?_, fun sha => ?_⟩
  · intro m hm
    rw [hnone] at hm
    cases hm
  · intro m hm
    rw [hnone] at hm
    cases hm
  · rw [hcache, hlisted]
    simp [Cache.empty]

/-- What is asked for comes from the last sync. -/
theorem request_cases (forceRefresh : Bool) (cache : Cache) :
    resourcesRequest forceRefresh cache = ⟨none, none⟩ ∨
      ∃ m, cache.metadata = some m ∧
        resourcesRequest forceRefresh cache = ⟨some m.lastCommit, some m.lastUpdated⟩ := by
  cases forceRefresh with
  | true => exact .inl rfl
  | false =>
    cases hm : cache.metadata with
    | none => exact .inl (by simp [resourcesRequest, hm])
    | some m => exact .inr ⟨m, rfl, by simp [resourcesRequest, hm]⟩

/-- The window never starts before the epoch. -/
theorem Consistent.window_start (h : Consistent c s) :
    unixEpoch ≤ (commitsWindow (resourcesRequest forceRefresh s.cache).lastUpdated now).1.getD
      unixEpoch := by
  rcases (commitsWindow_cases (resourcesRequest forceRefresh s.cache).lastUpdated now).2.2 with
    hwindow | hwindow
  · rw [hwindow]
    exact le_rfl
  · rw [hwindow]
    rcases request_cases forceRefresh s.cache with hrequest | ⟨m, hm, hrequest⟩
    · rw [hrequest]
      exact le_rfl
    · rw [hrequest]
      exact (h.agrees m hm).1

/-- **The tree after a sync.** -/
theorem Synced.agrees_iff {head : Sha} {page : Page CommitRow} (hc : Consistent c s)
    (h : Synced c forceRefresh now s cache head page) :
    Agrees (c.trees head) head cache ↔
      ∀ m ∈ s.cache.metadata, Stays (c.trees m.lastCommit) (c.trees head) := by
  by_cases hsame : (resourcesRequest forceRefresh s.cache).lastCommit = some head
  · obtain ⟨hpaths, hblobs⟩ := h.same hsame
    rcases request_cases forceRefresh s.cache with hrequest | ⟨m, hm, hrequest⟩
    · rw [hrequest] at hsame
      cases hsame
    · rw [hrequest] at hsame
      obtain rfl := Option.some.inj hsame
      have hold := (hc.agrees m hm).2
      refine ⟨fun _ m' hm' => ?_, fun _ => ⟨fun path => ?_, fun path => ?_⟩⟩
      · rw [hm] at hm'
        obtain rfl := Option.some.inj hm'
        exact .refl _
      · rw [hpaths, hold.paths]
      · rw [hblobs, hold.blobs]
  · have hpaths := h.paths hsame
    have hblobs := h.blobs hsame
    cases hm : s.cache.metadata with
    | none =>
      refine ⟨fun _ m hm' => (nomatch hm'), fun _ => ⟨fun path => ?_, fun path => ?_⟩⟩
      · rw [hpaths, hc.unsynced hm]
        exact Option.or_none
      · rw [hblobs, hc.unsynced hm]
        exact Option.or_none
    | some m =>
      refine (Web.agrees_iff (hc.agrees m hm).2 hpaths hblobs).trans ⟨?_, fun hall => hall m rfl⟩
      intro hstays m' hm'
      obtain rfl := Option.some.inj hm'
      exact hstays

/-- Listed rows of one commit are one row. -/
theorem eq_of_sha {store : ListingStore} {x y : CommitRow} (hone : OnePerCommit store.commits)
    (hx : x ∈ branchCommits c store now) (hy : y ∈ branchCommits c store now)
    (hsha : x.sha = y.sha) : x = y := by
  obtain ⟨repository, refName, hrepository, -, hmemx, hidx, -⟩ := mem_branchCommits.mp hx
  obtain ⟨repository', refName', hrepository', -, hmemy, hidy, -⟩ := mem_branchCommits.mp hy
  rw [hrepository] at hrepository'
  obtain rfl := Option.some.inj hrepository'
  exact hone x hmemx y hmemy (hidx.trans hidy.symm) hsha

/-- **The commits after a sync.** -/
theorem Synced.commits_iff {head : Sha} {page : Page CommitRow} (hc : Consistent c s)
    (h : Synced c forceRefresh now s cache head page) {row : CommitRow}
    (hrow : row ∈ branchCommits c s.server.store now) :
    (cache.commits row.sha).isSome ↔ row.sha ∈ s.listed ∨ Arrives s.server.store
      (commitsWindow (resourcesRequest forceRefresh s.cache).lastUpdated now) now row := by
  obtain ⟨hstop, hwindow, -⟩ :=
    commitsWindow_cases (resourcesRequest forceRefresh s.cache).lastUpdated now
  have hput : (∃ a ∈ page.data, a.sha = row.sha) ↔ row ∈ page.data := by
    refine ⟨?_, fun hin => ⟨row, hin, rfl⟩⟩
    rintro ⟨a, ha, hsha⟩
    have hlisted := mem_branchCommits_of_page hstop hwindow hc.window_start h.page_eq ha
    rw [← eq_of_sha hc.one hlisted hrow hsha]
    exact ha
  rw [h.commits, isSome_putAll, hc.commits, hput, mem_commits_iff hstop hwindow h.page_eq hrow]
  exact or_comm

/-- **One sync.** It is good exactly if what was synced last is kept. -/
theorem good_iff_kept (hc : Consistent c s) (e : SyncEvent) : Good c s e ↔ Kept c s e := by
  cases e with
  | push tip => exact Iff.rfl
  | record push draw => exact Iff.rfl
  | sync forceRefresh now =>
    change (∀ cache, process c forceRefresh now s.server s.cache = some cache → _) ↔ (_ → _)
    cases hprocess : process c forceRefresh now s.server s.cache with
    | none => exact ⟨fun _ h => (nomatch h), fun _ _ h => (nomatch h)⟩
    | some cache =>
      obtain ⟨head, page, hsynced⟩ := synced_of_process hprocess
      have htree := hsynced.agrees_iff hc
      constructor
      · rintro hgood -
        obtain ⟨⟨m, hm, hagrees⟩, hcommits⟩ := hgood cache rfl
        rw [hsynced.metadata] at hm
        obtain rfl := Option.some.inj hm
        refine ⟨fun m hm head' hhead => ?_, fun row hrow hnew => ?_⟩
        · rw [hsynced.head_eq] at hhead
          obtain rfl := Option.some.inj hhead
          exact htree.mp hagrees m hm
        · exact ((hsynced.commits_iff hc hrow).mp (hcommits row hrow)).resolve_left hnew
      · rintro hkept cache' hcache'
        obtain rfl := Option.some.inj hcache'
        obtain ⟨hstays, harrives⟩ := hkept rfl
        refine ⟨⟨_, hsynced.metadata, htree.mpr fun m hm => ?_⟩, fun row hrow => ?_⟩
        · exact hstays m hm head hsynced.head_eq
        · refine (hsynced.commits_iff hc hrow).mpr ?_
          by_cases hold : row.sha ∈ s.listed
          · exact .inl hold
          · exact .inr (harrives row hrow hold)

/-- A sync that was good leaves what holds between syncs. -/
theorem Consistent.sync (hc : Consistent c s) (hclock : Forward s (.sync forceRefresh now))
    (hgood : Good c s (.sync forceRefresh now)) :
    Consistent c (syncStep c o client (.sync forceRefresh now) s) := by
  change Consistent c (match process c forceRefresh now s.server s.cache with
    | some cache => ⟨s.server, cache, (branchCommits c s.server.store now).map CommitRow.sha⟩
    | none => s)
  cases hprocess : process c forceRefresh now s.server s.cache with
  | none => exact hc
  | some cache =>
    obtain ⟨head, page, hsynced⟩ := synced_of_process hprocess
    obtain ⟨⟨m, hm, hagrees⟩, hcommits⟩ := hgood cache hprocess
    have hmetadata : ∀ m', cache.metadata = some m' → m'.lastUpdated = now ∧ m' = m := by
      intro m' hm'
      rw [hm] at hm'
      obtain rfl := Option.some.inj hm'
      rw [hsynced.metadata] at hm
      exact ⟨congrArg Metadata.lastUpdated (Option.some.inj hm.symm), rfl⟩
    refine ⟨hc.one, fun hnone => ?_, fun m' hm' => ?_, fun m' hm' sha hsha => ?_, fun sha => ?_⟩
    · change cache.metadata = none at hnone
      rw [hm] at hnone
      cases hnone
    · obtain ⟨hnow, rfl⟩ := hmetadata m' hm'
      exact ⟨hnow ▸ hclock.1, hagrees⟩
    · obtain ⟨hnow, -⟩ := hmetadata m' hm'
      rw [hnow]
      exact List.mem_map.mp hsha
    · constructor
      · intro hsome
        change (cache.commits sha).isSome at hsome
        rw [hsynced.commits, isSome_putAll] at hsome
        rcases hsome with ⟨row, hin, rfl⟩ | hsome
        · obtain ⟨hstop, hwindow, -⟩ :=
            commitsWindow_cases (resourcesRequest forceRefresh s.cache).lastUpdated now
          exact List.mem_map.mpr
            ⟨row, mem_branchCommits_of_page hstop hwindow hc.window_start hsynced.page_eq hin, rfl⟩
        · have hold := (hc.commits sha).mp hsome
          cases hlast : s.cache.metadata with
          | none =>
            rw [hc.unsynced hlast] at hsome
            cases hsome
          | some last =>
            obtain ⟨row, hrow, rfl⟩ := hc.listed last hlast sha hold
            exact List.mem_map.mpr
              ⟨row, branchCommits_mono rfl (fun _ h => h) (hclock.2 last hlast) hrow, rfl⟩
      · intro hsha
        obtain ⟨row, hrow, rfl⟩ := List.mem_map.mp hsha
        exact hcommits row hrow

/-- The background task of a push only adds rows. -/
theorem recorded_spec (store : ListingStore) (push : PostReceive) (draw : Draw)
    (hone : OnePerCommit store.commits) :
    (recorded o client store push draw).world = store.world ∧
      (∀ x ∈ store.commits.rows, x ∈ (recorded o client store push draw).commits.rows) ∧
        OnePerCommit (recorded o client store push draw).commits := by
  unfold recorded
  rcases record_cases (s := ⟨store, []⟩) o client (push, draw) hone with
    ⟨-, e, hfail⟩ | ⟨out, r, hcreate, -, -, hworld, hrecords⟩
  · rw [hfail]
    exact ⟨rfl, fun _ h => h, hone⟩
  · rw [hcreate]
    exact ⟨hworld, hrecords.old, hrecords.one⟩

/-- **One step.** -/
theorem Consistent.step (hc : Consistent c s) {e : SyncEvent} (hclock : Forward s e)
    (hgood : Good c s e) : Consistent c (syncStep c o client e s) := by
  cases e with
  | push tip => exact ⟨hc.one, hc.unsynced, hc.agrees, hc.listed, hc.commits⟩
  | record push draw =>
    obtain ⟨hworld, hrows, hone⟩ := recorded_spec s.server.store push draw hc.one
    refine ⟨hone, hc.unsynced, hc.agrees, fun m hm sha hsha => ?_, hc.commits⟩
    obtain ⟨row, hrow, hrowSha⟩ := hc.listed m hm sha hsha
    exact ⟨row, branchCommits_mono hworld hrows le_rfl hrow, hrowSha⟩
  | sync forceRefresh now => exact hc.sync hclock hgood

/-- **A run.** -/
theorem guarded_good_iff : ∀ {events : List SyncEvent} {s : SyncState}, Consistent c s →
    Guarded (syncStep c o client) Forward events s →
      (Guarded (syncStep c o client) (Good c) events s ↔
        Guarded (syncStep c o client) (Kept c) events s)
  | [], _, _, _ => Iff.rfl
  | e :: events, s, hc, hclock => by
    have hone := good_iff_kept hc e
    constructor
    · intro h
      exact ⟨hone.mp h.1, (guarded_good_iff (hc.step hclock.1 h.1) hclock.2).mp h.2⟩
    · intro h
      have hgood := hone.mpr h.1
      exact ⟨hgood, (guarded_good_iff (hc.step hclock.1 hgood) hclock.2).mpr h.2⟩

/-- **The cache converges** at every sync of a run exactly if what was synced
last is kept at every sync of it. -/
theorem cache_converges_iff {events : List SyncEvent} (hs : Unsynced s)
    (hclock : Guarded (syncStep c o client) Forward events s) :
    Guarded (syncStep c o client) (Good c) events s ↔
      Guarded (syncStep c o client) (Kept c) events s :=
  guarded_good_iff hs.consistent hclock

end Sync

/-! ### A file that is deleted

Two files are pushed one after the other, and the second one is deleted. -/

def readme : TreeEntry := ⟨"README.md", "README.md", 10, .blob "hello" "utf-8"⟩

def notes : TreeEntry := ⟨"notes.txt", "notes.txt", 11, .blob "todo" "utf-8"⟩

/-- The second of three commits adds the notes, and the third deletes them. -/
def noteTrees : Sha → Tree
  | 2 => ⟨[readme, notes], by decide⟩
  | _ => ⟨[readme], by decide⟩

def noteRemote : Remote :=
  ⟨noteTrees, tiedPayload, fun _ _ => .ok "refs/heads/main", "alice", "site", none⟩

def neverSynced : SyncState := ⟨⟨none, noCommits.store⟩, .empty, []⟩

theorem unsynced_neverSynced : Unsynced neverSynced := ⟨rfl, rfl, fun _ hx => (nomatch hx)⟩

/-- One commit after the other is pushed, and the worker syncs after each. -/
def pushedAndSynced (now : Time) : List Sha → List SyncEvent
  | [] => []
  | tip :: tips =>
    .push tip :: .record ⟨"alice", "site", "refs/heads/main", 0, 1⟩ ⟨fun n => Fin.ofNat _ (40 + n),
      fun _ => none⟩ :: .sync false now :: pushedAndSynced (now + 1) tips

theorem cache_converges_iff_added :
    Guarded (syncStep noteRemote oneCommit fun _ _ => .ok fun _ => true) (Good noteRemote)
        (pushedAndSynced tied [1, 2]) neverSynced ↔
      Guarded (syncStep noteRemote oneCommit fun _ _ => .ok fun _ => true) (Kept noteRemote)
        (pushedAndSynced tied [1, 2]) neverSynced :=
  cache_converges_iff unsynced_neverSynced (by decide +kernel)

/-- The deleted file stays in the cache. -/
theorem deleted_notes_stay : ¬ ∀ (c : Remote) (o : Objects) (client : Client) (s : SyncState)
    (events : List SyncEvent), Unsynced s → Guarded (syncStep c o client) Forward events s →
      Guarded (syncStep c o client) (Good c) events s := by
  intro h
  obtain ⟨-, -, -, -, -, -, -, -, hgood, -⟩ := h noteRemote oneCommit (fun _ _ => .ok fun _ => true)
    neverSynced (pushedAndSynced tied [1, 2, 3]) unsynced_neverSynced (by decide +kernel)
  obtain ⟨⟨m, hm, hagrees⟩, -⟩ := hgood _ rfl
  cases hm
  have hpaths := hagrees.paths "notes.txt"
  revert hpaths
  decide +kernel

end Web
end Gitdot
