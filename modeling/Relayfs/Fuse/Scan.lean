/-
  File:      Relayfs/Fuse/Scan.lean
  Subject:   A DIRECTORY SCAN (bridge/src/fuse_fs.rs, `readdir`; agent/src/files.rs, `list_dir`): the
             directory is fetched and sorted afresh for each page, and a page begins at a position.

  * `Agent.listDir` -- the target's listing;
  * `scanSem` -- the target answers with its listing; a reply buffer has room for an entry at least;
  * `Scan` -- pages, and any changes between them;
  * `page_of_readdir` -- what one call of `readdir` delivers;
  * `delivered_once_iff` -- an entry that stays is delivered exactly once exactly when between the
    pages it falls behind the offset as often as it comes back before it;
  * `RemoteDir.idxOf_names` -- where an entry is: behind those with a smaller name;
  * `removal_skips_entry` -- an entry behind one that is removed.
-/
import Mathlib.Data.List.Sort
import Relayfs.Fuse.Mount
import Relayfs.Lib.Paging

namespace Relayfs

open Lib Prog

/-! ## 1. The remote directory -/

/-- **A directory of the target**: entries with distinct names, in the order of the system. -/
structure RemoteDir where
  entries : List DirEntry
  nodup : (entries.map DirEntry.name).Nodup
  no_dots : ∀ e ∈ entries, e.name ≠ "." ∧ e.name ≠ ".."
  fits : ∀ e ∈ entries, e.Fits

/-- `list_dir`: sorted by name. -/
def Agent.listDir (d : RemoteDir) : List DirEntry :=
  d.entries.insertionSort fun a b => a.name ≤ b.name

/-- The listing comes out of its JSON as it is. -/
theorem RemoteDir.listed (d : RemoteDir) :
    listDirEntries (listDirJson (Agent.listDir d)) = some (Agent.listDir d) :=
  listDirEntries_listDirJson fun e he =>
    d.fits e ((List.perm_insertionSort _ _).mem_iff.mp he)

/-- The names that `readdir` goes through. -/
def RemoteDir.names (d : RemoteDir) : List String :=
  "." :: ".." :: (Agent.listDir d).map DirEntry.name

theorem RemoteDir.mem_names {d : RemoteDir} {e : DirEntry} (h : e ∈ d.entries) :
    e.name ∈ d.names := by
  refine List.mem_cons_of_mem _ (List.mem_cons_of_mem _ (List.mem_map_of_mem ?_))
  exact (List.perm_insertionSort _ _).mem_iff.mpr h

/-- In a sorted list without repetitions, an element is behind the smaller ones. -/
theorem idxOf_eq_countP {α : Type} [LinearOrder α] {l : List α} (hsorted : l.Pairwise (· ≤ ·))
    (hnodup : l.Nodup) {a : α} (ha : a ∈ l) : l.idxOf a = l.countP (· < a) := by
  induction l with
  | nil => exact absurd ha List.not_mem_nil
  | cons b l ih =>
    rw [List.pairwise_cons] at hsorted
    rw [List.nodup_cons] at hnodup
    by_cases hab : b = a
    · subst hab
      rw [List.idxOf_cons_self, List.countP_cons_of_neg (by simp), eq_comm, List.countP_eq_zero]
      intro c hc
      simpa using hsorted.1 c hc
    · have hmem : a ∈ l := (List.mem_cons.mp ha).resolve_left (Ne.symm hab)
      have hlt : b < a := lt_of_le_of_ne (hsorted.1 a hmem) hab
      rw [List.idxOf_cons_ne _ hab, List.countP_cons_of_pos (by simpa using hlt),
        ih hsorted.2 hnodup.2 hmem]

theorem RemoteDir.nodup_names (d : RemoteDir) : d.names.Nodup := by
  have hperm : ((Agent.listDir d).map DirEntry.name).Perm (d.entries.map DirEntry.name) :=
    (List.perm_insertionSort _ _).map _
  have hno : ∀ name ∈ (Agent.listDir d).map DirEntry.name, name ≠ "." ∧ name ≠ ".." := by
    intro name hname
    obtain ⟨e, he, rfl⟩ := List.mem_map.mp (hperm.mem_iff.mp hname)
    exact d.no_dots e he
  rw [RemoteDir.names, List.nodup_cons, List.nodup_cons]
  refine ⟨?_, fun hmem => (hno _ hmem).2 rfl, hperm.nodup_iff.mpr d.nodup⟩
  rw [List.mem_cons, not_or]
  exact ⟨by decide, fun hmem => (hno _ hmem).1 rfl⟩

/-- **Where an entry is**: behind the two dots and the entries with a smaller name. -/
theorem RemoteDir.idxOf_names (d : RemoteDir) {e : DirEntry} (h : e ∈ d.entries) :
    d.names.idxOf e.name = 2 + d.entries.countP (·.name < e.name) := by
  have hdots := d.no_dots e h
  have hsorted : ((Agent.listDir d).map DirEntry.name).Pairwise (· ≤ ·) :=
    List.pairwise_map.mpr (List.pairwise_insertionSort _ _)
  have hnodup : ((Agent.listDir d).map DirEntry.name).Nodup :=
    (d.nodup_names.sublist (List.sublist_cons_self _ _)).sublist (List.sublist_cons_self _ _)
  have hmem : e.name ∈ (Agent.listDir d).map DirEntry.name :=
    List.mem_map_of_mem ((List.perm_insertionSort _ _).mem_iff.mpr h)
  have hcount : d.entries.countP (·.name < e.name)
      = ((Agent.listDir d).map DirEntry.name).countP (· < e.name) := by
    rw [List.countP_map]
    exact (List.perm_insertionSort _ _).symm.countP_eq _
  rw [RemoteDir.names, List.idxOf_cons_ne _ hdots.1.symm, List.idxOf_cons_ne _ hdots.2.symm,
    idxOf_eq_countP hsorted hnodup hmem, hcount]
  omega

/-! ## 2. One call -/

/-- The directory, and what the call has added to its reply. -/
structure ScanEnv where
  dir : RemoteDir
  added : List DirRow

/-- **The meaning of the effects.** The target answers with its listing; a reply that is full takes
    no row, and an empty one is not full. The cache directory is of no account. -/
def scanSem : EnvSem ScanEnv
  | .call (.listDir _), s, a, t =>
      a = .ok (listDirJson (Agent.listDir s.dir)) ∧ t = s
  | .createDirAll _, s, _, t => t = s
  | .addRow row, s, a, t =>
      (a = true ∧ t = s ∧ s.added ≠ []) ∨
        (a = false ∧ t = { s with added := s.added ++ [row] })
  | _, _, _, _ => False

section Call

variable {cfg : MountCfg} {s t : Mount ScanEnv}

theorem scan_remoteEntries {dir : PathBuf} {entries : List DirEntry}
    {found : List (FileType × String)}
    (hx : Exec (mountSem cfg scanSem) (RemoteFs.remoteEntries dir entries) s found t) :
    found.map Prod.snd = entries.map DirEntry.name ∧ t.env = s.env := by
  unfold RemoteFs.remoteEntries at hx
  induction entries generalizing s found with
  | nil =>
    rw [List.mapM_nil] at hx
    obtain ⟨rfl, rfl⟩ := exec_pure.mp hx
    exact ⟨rfl, rfl⟩
  | cons e entries ih =>
    rw [List.mapM_cons] at hx
    obtain ⟨row, u, hrow, hx⟩ := exec_bind.mp hx
    obtain ⟨rest, v, hrest, hx⟩ := exec_bind.mp hx
    obtain ⟨rfl, rfl⟩ := exec_pure.mp hx
    obtain ⟨hnames, henv⟩ := ih hrest
    have hone : row.2 = e.name ∧ u.env = s.env := by
      split at hrow
      · obtain ⟨_, w, hmake, hrow⟩ := exec_bind.mp hrow
        obtain ⟨rfl, rfl⟩ := exec_pure.mp hrow
        obtain ⟨env, hsame, rfl⟩ := exec_perform.mp hmake
        exact ⟨rfl, hsame⟩
      · obtain ⟨rfl, rfl⟩ := exec_pure.mp hrow
        exact ⟨rfl, rfl⟩
    rw [List.map_cons, List.map_cons, hnames, hone.1]
    exact ⟨rfl, henv.trans hone.2⟩

/-- The rows: each entry with its inode. -/
theorem scan_rows {path : PathBuf} {entries : List (FileType × String)}
    {rows : List (Nat × FileType × String)}
    (hx : Exec (mountSem cfg scanSem) (entries.mapM fun e => do
      return ((← FsProg.inoForPath (path.child e.2)), e.1, e.2)) s rows t) :
    (rows.map fun row => row.2.2) = entries.map Prod.snd ∧ t.env = s.env := by
  induction entries generalizing s rows with
  | nil =>
    rw [List.mapM_nil] at hx
    obtain ⟨rfl, rfl⟩ := exec_pure.mp hx
    exact ⟨rfl, rfl⟩
  | cons e entries ih =>
    rw [List.mapM_cons] at hx
    obtain ⟨row, u, hrow, hx⟩ := exec_bind.mp hx
    obtain ⟨rest, v, hrest, hx⟩ := exec_bind.mp hx
    obtain ⟨rfl, rfl⟩ := exec_pure.mp hx
    obtain ⟨hnames, henv⟩ := ih hrest
    obtain ⟨ino, w, hino, hrow⟩ := exec_bind.mp hrow
    obtain ⟨rfl, rfl⟩ := exec_pure.mp hrow
    obtain ⟨-, rfl⟩ := exec_perform.mp hino
    rw [List.map_cons, List.map_cons, hnames]
    exact ⟨rfl, henv⟩

/-- **What a call adds to its reply**: names of the list, from the offset on, with the positions
    behind them. It adds nothing only to a reply that has entries, or behind the list. -/
structure Adds (offset i : Nat) (names : List String) (before new : List DirRow) : Prop where
  rows : new.map DirRow.name = (names.drop (offset - i)).take new.length
  offsets : new.map DirRow.offset = List.range' (max offset i + 1) new.length
  nothing : new = [] → before ≠ [] ∨ i + names.length ≤ max offset i

theorem scan_addRows {offset : Nat} {rows : List (Nat × FileType × String)} {i : Nat} {a : Unit}
    (hx : Exec (mountSem cfg scanSem) (RemoteFs.addRows offset i rows) s a t) :
    ∃ new, t.env = { s.env with added := s.env.added ++ new } ∧
      Adds offset i (rows.map fun row => row.2.2) s.env.added new := by
  induction rows generalizing s i with
  | nil =>
    obtain ⟨-, rfl⟩ := exec_pure.mp hx
    exact ⟨[], by rw [List.append_nil], ⟨by simp, rfl, fun _ => .inr (by simp)⟩⟩
  | cons row rows ih =>
    obtain ⟨ino, kind, name⟩ := row
    rw [RemoteFs.addRows] at hx
    rw [List.map_cons]
    by_cases hi : i < offset
    · rw [if_pos hi] at hx
      obtain ⟨new, henv, hadds⟩ := ih hx
      have hmax : max offset (i + 1) = max offset i := by omega
      refine ⟨new, henv, ⟨?_, hmax ▸ hadds.offsets, fun hnew => ?_⟩⟩
      · have hsub : offset - i = offset - (i + 1) + 1 := by omega
        rw [hsub, List.drop_succ_cons]
        exact hadds.rows
      · have hend := hadds.nothing hnew
        rw [hmax] at hend
        rw [List.length_cons]
        exact hend.imp id fun hle => by omega
    · rw [if_neg hi] at hx
      obtain ⟨full, u, hrow, hx⟩ := exec_bind.mp hx
      obtain ⟨env, hadd, rfl⟩ := exec_perform.mp hrow
      obtain ⟨rfl, rfl, hne⟩ | ⟨rfl, rfl⟩ := hadd
      · obtain ⟨-, rfl⟩ := exec_pure.mp hx
        exact ⟨[], by rw [List.append_nil], ⟨by simp, rfl, fun _ => .inl hne⟩⟩
      · obtain ⟨new, henv, hadds⟩ := ih hx
        have hmax : max offset (i + 1) = max offset i + 1 := by omega
        have hsub : offset - i = 0 := by omega
        have hsub' : offset - (i + 1) = 0 := by omega
        have hrows := hadds.rows
        have hoffsets := hadds.offsets
        rw [hsub', List.drop_zero] at hrows
        rw [hmax] at hoffsets
        refine ⟨⟨ino, i + 1, kind, name⟩ :: new, ?_, ⟨?_, ?_, fun h => ?_⟩⟩
        · rw [henv]
          simp only [List.append_assoc, List.singleton_append]
        · rw [hsub, List.drop_zero, List.map_cons, List.length_cons, List.take_succ_cons, hrows]
        · have hpos : max offset i = i := by omega
          rw [List.map_cons, List.length_cons, List.range'_succ, hoffsets, hpos]
        · cases h

/-- Where the next call begins: at the offset of the last entry delivered. -/
def resume (offset : Nat) (rows : List DirRow) : Nat :=
  (rows.getLast?.map DirRow.offset).getD offset

theorem Adds.resume {offset : Nat} {names : List String} {before new : List DirRow}
    (h : Adds offset 0 names before new) : resume offset new = offset + new.length := by
  have hmax : max offset 0 = offset := by omega
  have hoffsets := h.offsets
  rw [hmax] at hoffsets
  rw [Relayfs.resume, ← List.getLast?_map, hoffsets, List.getLast?_range']
  split_ifs with hnone
  · rw [hnone]
    rfl
  · rw [Option.getD_some]
    omega

/-- **One call of `readdir`** that is answered: the reply gets the names from the offset on, and
    nothing only at the end. -/
theorem page_of_readdir {ino offset : Nat} (hempty : s.env.added = [])
    (hx : Exec (mountSem cfg scanSem) (RemoteFs.readdir cfg ino offset) s .ok t) :
    t.env.dir = s.env.dir ∧ Adds offset 0 s.env.dir.names [] t.env.added := by
  obtain ⟨found, u, hpath, hx⟩ := exec_bind.mp hx
  obtain rfl : s = u := (exec_perform.mp hpath).2.symm
  cases found with
  | none =>
    obtain ⟨h, -⟩ := exec_pure.mp hx
    cases h
  | some path =>
    obtain ⟨_, u, hmake, hx⟩ := exec_bind.mp hx
    obtain ⟨env, hsame, rfl⟩ := exec_perform.mp hmake
    obtain rfl : env = s.env := hsame
    obtain ⟨listed, v, hlist, hx⟩ := exec_bind.mp hx
    obtain ⟨answer, w, hcall, hlist⟩ := exec_bind.mp hlist
    obtain ⟨reply, env, htarget, rfl, rfl⟩ := exec_rpcCall hcall
    obtain ⟨rfl, rfl⟩ := htarget
    simp only [Except.mapError, s.env.dir.listed] at hlist
    obtain ⟨entries, w, hentries, hlist⟩ := exec_bind.mp hlist
    obtain ⟨rfl, rfl⟩ := exec_pure.mp hlist
    obtain ⟨hnames, henv⟩ := scan_remoteEntries hentries
    obtain ⟨rows, w', hrows, hx⟩ := exec_bind.mp hx
    obtain ⟨hrownames, henv'⟩ := scan_rows hrows
    obtain ⟨_, w'', hadd, hx⟩ := exec_bind.mp hx
    obtain ⟨-, rfl⟩ := exec_pure.mp hx
    obtain ⟨new, hnew, hadds⟩ := scan_addRows hadd
    have hsame : w'.env = s.env := henv'.trans henv
    rw [hsame] at hnew hadds
    rw [hempty, List.nil_append] at hnew
    rw [List.map_cons, List.map_cons, hrownames, hnames, hempty] at hadds
    rw [hnew]
    exact ⟨rfl, hadds⟩

/-! A call comes to its end, with any room in the reply. -/

theorem exec_remoteEntries (cfg : MountCfg) (dir : PathBuf) (entries : List DirEntry)
    (s : Mount ScanEnv) :
    ∃ found t, Exec (mountSem cfg scanSem) (RemoteFs.remoteEntries dir entries) s found t := by
  refine exec_of_only (P := fun e => ∃ p, e = .createDirAll p) ?_ (Only.mapM fun e _ => ?_) s
  · intro e s he
    obtain ⟨p, rfl⟩ := he
    exact ⟨(), s, s.env, rfl, rfl⟩
  · split
    · exact Only.bind (only_perform.mpr ⟨_, rfl⟩) fun _ => only_pure _
    · exact only_pure _

theorem exec_rows (cfg : MountCfg) (path : PathBuf) (entries : List (FileType × String))
    (s : Mount ScanEnv) :
    ∃ rows t, Exec (mountSem cfg scanSem) (entries.mapM fun e => do
      return ((← FsProg.inoForPath (path.child e.2)), e.1, e.2)) s rows t := by
  refine exec_of_only (P := fun e => ∃ p, e = .inoForPath p) ?_ (Only.mapM fun e _ => ?_) s
  · intro e s he
    obtain ⟨p, rfl⟩ := he
    exact ⟨_, _, rfl, rfl⟩
  · exact Only.bind (only_perform.mpr ⟨_, rfl⟩) fun _ => only_pure _

/-- As many rows as there is room for. -/
theorem exec_addRows (cfg : MountCfg) (offset i : Nat) (rows : List (Nat × FileType × String))
    {room : Nat} {s : Mount ScanEnv} (hroom : 0 < room ∨ s.env.added ≠ []) :
    ∃ t, Exec (mountSem cfg scanSem) (RemoteFs.addRows offset i rows) s () t ∧
      t.env.added.length = s.env.added.length + min room (rows.length - (offset - i)) := by
  induction rows generalizing s i room with
  | nil => exact ⟨s, .done _ _, by simp⟩
  | cons row rows ih =>
    obtain ⟨ino, kind, name⟩ := row
    rw [RemoteFs.addRows, List.length_cons]
    by_cases hi : i < offset
    · rw [if_pos hi]
      obtain ⟨t, hx, hlen⟩ := ih (i + 1) hroom
      exact ⟨t, hx, by omega⟩
    · rw [if_neg hi]
      cases room with
      | zero =>
        have hne := hroom.resolve_left (Nat.lt_irrefl 0)
        exact ⟨s, exec_bind.mpr ⟨true, s, exec_perform.mpr ⟨s.env, .inl ⟨rfl, rfl, hne⟩, rfl⟩,
          .done _ _⟩, by simp⟩
      | succ room =>
        let u : Mount ScanEnv :=
          { s with env := { s.env with added := s.env.added ++ [⟨ino, i + 1, kind, name⟩] } }
        have hne : u.env.added ≠ [] := List.append_ne_nil_of_right_ne_nil _ (List.cons_ne_nil _ _)
        obtain ⟨t, hx, hlen⟩ : ∃ t, Exec (mountSem cfg scanSem)
            (RemoteFs.addRows offset (i + 1) rows) u () t ∧ t.env.added.length
              = u.env.added.length + min room (rows.length - (offset - (i + 1))) :=
          ih (i + 1) (.inr hne)
        refine ⟨t, exec_bind.mpr ⟨false, u, exec_perform.mpr ⟨u.env, .inr ⟨rfl, rfl⟩, rfl⟩, hx⟩, ?_⟩
        have hadded : u.env.added.length = s.env.added.length + 1 := List.length_append
        omega

/-- **A call of `readdir` comes to its end.** -/
theorem exec_readdir {ino offset room : Nat} {path : PathBuf}
    (hpath : s.inodes.path ino = some path) (hroom : 0 < room) (hempty : s.env.added = []) :
    ∃ t, Exec (mountSem cfg scanSem) (RemoteFs.readdir cfg ino offset) s .ok t ∧
      t.env.added.length = min room (s.env.dir.names.length - offset) := by
  let u : Mount ScanEnv := { s with sent := .listDir path.text :: s.sent }
  obtain ⟨found, v, hfound⟩ :=
    exec_remoteEntries cfg (cfg.cachePath path) (Agent.listDir s.env.dir) u
  obtain ⟨rows, w, hrows⟩ := exec_rows cfg path found v
  have henv : w.env = s.env := (scan_rows hrows).2.trans (scan_remoteEntries hfound).2
  obtain ⟨t, hadd, hlen⟩ := exec_addRows cfg offset 0
    ((ino, .directory, ".") :: (1, .directory, "..") :: rows) (s := w) (.inl hroom)
  refine ⟨t, ?_, ?_⟩
  · let answer : Except RpcError Json := .ok (listDirJson (Agent.listDir s.env.dir))
    have hcall : Exec (mountSem cfg scanSem) (RemoteFs.rpc (.listDir path.text)) s
        (answer.mapError errnoFor) u :=
      .ask (a := answer) ⟨s.env, ⟨rfl, rfl⟩, rfl⟩ (.done _ _)
    have hlist : Exec (mountSem cfg scanSem) (RemoteFs.listEntries path (cfg.cachePath path)) s
        (.ok found) v := by
      refine exec_bind.mpr ⟨_, _, hcall, ?_⟩
      simp only [answer, Except.mapError, s.env.dir.listed]
      exact exec_bind.mpr ⟨_, _, hfound, .done _ _⟩
    refine exec_bind.mpr ⟨some path, s, exec_perform.mpr ⟨hpath.symm, rfl⟩, ?_⟩
    refine exec_bind.mpr ⟨(), s, exec_perform.mpr ⟨s.env, rfl, rfl⟩, ?_⟩
    refine exec_bind.mpr ⟨_, _, hlist, ?_⟩
    exact exec_bind.mpr ⟨_, _, hrows, exec_bind.mpr ⟨_, _, hadd, .done _ _⟩⟩
  · have hnames : rows.length = (Agent.listDir s.env.dir).length := by
      have hsame := (scan_rows hrows).1.trans (scan_remoteEntries hfound).1
      simpa only [List.length_map] using congrArg List.length hsame
    rw [hlen, henv, hempty, RemoteDir.names]
    simp only [List.length_nil, List.length_cons, List.length_map, hnames]
    omega

end Call

/-! ## 3. Scans -/

/-- **A page of a scan**: the directory at that time, the offset asked for, and what the reply
    got. -/
structure ScanPage where
  dir : RemoteDir
  offset : Nat
  rows : List DirRow

namespace ScanPage

/-- The page, in the list of names. -/
def page (p : ScanPage) : Page String := ⟨p.dir.names, p.offset, p.rows.length⟩

/-- The directory has an entry of that name. -/
def Lists (p : ScanPage) (name : String) : Prop := ∃ e ∈ p.dir.entries, e.name = name

/-- What is known of every page. -/
structure Read (p : ScanPage) : Prop where
  names : p.rows.map DirRow.name = p.page.items
  next : resume p.offset p.rows = p.page.stop
  last : p.rows = [] → p.dir.names.length ≤ p.offset

theorem Lists.has {p : ScanPage} {name : String} (h : p.Lists name) : p.page.Has name := by
  obtain ⟨e, he, rfl⟩ := h
  exact ⟨p.dir.nodup_names, RemoteDir.mem_names he⟩

end ScanPage

/-- The offset of the next call. -/
def nextOffset : List ScanPage → Nat
  | [] => 0
  | p :: _ => resume p.offset p.rows

/-- **A scan**: calls of `readdir`, each with the offset of the last entry delivered, the newest
    first. Between two calls the mount and the directory change in any way. -/
inductive Scan (cfg : MountCfg) (ino : Nat) : List ScanPage → Mount ScanEnv → Prop where
  | start (s : Mount ScanEnv) : Scan cfg ino [] s
  | change {pages : List ScanPage} {s : Mount ScanEnv} (h : Scan cfg ino pages s)
      (t : Mount ScanEnv) : Scan cfg ino pages t
  | page {pages : List ScanPage} {s t : Mount ScanEnv} (h : Scan cfg ino pages s)
      (hempty : s.env.added = [])
      (hx : Exec (mountSem cfg scanSem) (RemoteFs.readdir cfg ino (nextOffset pages)) s .ok t) :
      Scan cfg ino (⟨s.env.dir, nextOffset pages, t.env.added⟩ :: pages) t

/-- The names delivered. -/
def deliveredNames (pages : List ScanPage) : List String :=
  pages.flatMap fun p => p.rows.map DirRow.name

section Run

variable {cfg : MountCfg} {ino : Nat} {pages : List ScanPage} {last : ScanPage}
  {s : Mount ScanEnv} {name : String}

/-- **The pages of a scan follow each other.** -/
theorem Scan.chained (h : Scan cfg ino pages s) :
    Chained (pages.map ScanPage.page) ∧ ∀ p ∈ pages, p.Read := by
  induction h with
  | start s => exact ⟨trivial, fun p hp => absurd hp List.not_mem_nil⟩
  | change _ _ ih => exact ih
  | @page pages s t _ hempty hx ih =>
    obtain ⟨hchained, hread⟩ := ih
    obtain ⟨-, hadds⟩ := page_of_readdir hempty hx
    have hnew : ScanPage.Read ⟨s.env.dir, nextOffset pages, t.env.added⟩ := by
      refine ⟨hadds.rows, hadds.resume, fun hnone => ?_⟩
      obtain hbefore | hend := hadds.nothing hnone
      · exact absurd rfl hbefore
      · dsimp only
        omega
    refine ⟨?_, List.forall_mem_cons.mpr ⟨hnew, hread⟩⟩
    cases pages with
    | nil => rfl
    | cons p older => exact ⟨(hread p List.mem_cons_self).next, hchained⟩

theorem Scan.delivered_eq (h : Scan cfg ino pages s) :
    (deliveredNames pages).count name = delivered name (pages.map ScanPage.page) := by
  rw [deliveredNames, List.count_flatMap, delivered, List.map_map]
  congr 1
  refine List.map_congr_left fun p hp => ?_
  rw [Function.comp_apply, Function.comp_apply, (h.chained.2 p hp).names]

/-- **An entry that is there throughout a scan, down to the call that delivers nothing more, is
    delivered exactly once exactly when between the calls it falls behind the offset as often as it
    comes back before it.** -/
theorem delivered_once_iff (h : Scan cfg ino (last :: pages) s) (hend : last.rows = [])
    (hname : ∀ p ∈ last :: pages, p.Lists name) :
    (deliveredNames (last :: pages)).count name = 1 ↔
      skips name ((last :: pages).map ScanPage.page)
        = comesBack name ((last :: pages).map ScanPage.page) := by
  obtain ⟨hchained, hread⟩ := h.chained
  rw [h.delivered_eq]
  refine delivered_once_iff_balanced hchained ?_ ((hread last List.mem_cons_self).last hend)
  rw [← List.map_cons, List.forall_mem_map]
  exact fun p hp => (hname p hp).has

end Run

/-! ## 4. Scans with and without a removal -/

section Page

variable {cfg : MountCfg} {pages : List ScanPage} {s : Mount ScanEnv}

/-- A mount of that directory. -/
def scanMount (cfg : MountCfg) (d : RemoteDir) : Mount ScanEnv :=
  ⟨.new cfg.remoteDir, ⟨.new 0, []⟩, [], [], [], [], ⟨d, []⟩⟩

/-- A further page, of any directory, with any room. -/
theorem Scan.further (h : Scan cfg 1 pages s) (d : RemoteDir) {room : Nat} (hroom : 0 < room) :
    ∃ rows t, Scan cfg 1 (⟨d, nextOffset pages, rows⟩ :: pages) t ∧
      rows.length = min room (d.names.length - nextOffset pages) := by
  have hpath : (scanMount cfg d).inodes.path 1 = some cfg.remoteDir := AList.lookup_insert _
  obtain ⟨t, hx, hlen⟩ := exec_readdir (s := scanMount cfg d) hpath hroom rfl
  exact ⟨t.env.added, t, .page (h.change _) rfl hx, hlen⟩

/-- A scan in two calls: a page of a directory, and then nothing of another one that ends where the
    page does. -/
theorem Scan.two (cfg : MountCfg) {d d' : RemoteDir} (room : Nat) (hroom : 0 < room)
    (hle : room ≤ d.names.length) (hend : d'.names.length ≤ room) :
    ∃ rows t, Scan cfg 1 [⟨d', room, []⟩, ⟨d, 0, rows⟩] t ∧ rows.length = room := by
  have hstart : Scan cfg 1 [] (scanMount cfg d) := .start _
  obtain ⟨rows, t, hfirst, hlen⟩ := hstart.further d hroom
  have hcount : rows.length = room := by
    rw [hlen, nextOffset]
    omega
  have hnext : resume 0 rows = room := by
    have hread := (hfirst.chained.2 _ List.mem_cons_self).next
    rw [ScanPage.page, Page.stop] at hread
    simp only [nextOffset] at hread
    omega
  obtain ⟨more, u, hsecond, hmore⟩ := hfirst.further d' hroom
  have hoffset : nextOffset [⟨d, nextOffset [], rows⟩] = room := hnext
  rw [hoffset] at hsecond hmore
  obtain rfl : more = [] := List.length_eq_zero_iff.mp (by omega)
  exact ⟨rows, u, hsecond, hcount⟩

end Page

/-- A mount of `/srv`. -/
def plainMount : MountCfg := ⟨false, ⟨true, ["srv"]⟩, ⟨true, ["cache"]⟩⟩

/-- An empty file. -/
def emptyEntry (name : String) : DirEntry := ⟨name, .file, 0, 0⟩

theorem emptyEntry_fits (name : String) : (emptyEntry name).Fits := by
  constructor <;> exact Nat.two_pow_pos 64

/-- The files `a` and `b`. -/
def twoFiles : RemoteDir where
  entries := [emptyEntry "a", emptyEntry "b"]
  nodup := by decide
  no_dots := by decide
  fits := by simp [emptyEntry_fits]

/-- `a` is gone. -/
def oneFile : RemoteDir where
  entries := [emptyEntry "b"]
  nodup := by decide
  no_dots := by decide
  fits := by simp [emptyEntry_fits]

theorem twoFiles_names : twoFiles.names = [".", "..", "a", "b"] := by
  have hsorted : twoFiles.entries.Pairwise fun a b => a.name ≤ b.name :=
    List.pairwise_pair.mpr (by decide)
  rw [RemoteDir.names, Agent.listDir, hsorted.insertionSort_eq]
  rfl

theorem oneFile_names : oneFile.names = [".", "..", "b"] := rfl

theorem b_listed {pages : List ScanPage} (h : ∀ p ∈ pages, p.dir = twoFiles ∨ p.dir = oneFile) :
    ∀ p ∈ pages, p.Lists "b" := by
  intro p hp
  refine ⟨emptyEntry "b", ?_, rfl⟩
  obtain hdir | hdir := h p hp <;> simp [hdir, twoFiles, oneFile]

/-- `a` is removed when both have been delivered. -/
theorem delivered_once_iff_behind :
    ∃ rows s, Scan plainMount 1 [⟨oneFile, 4, []⟩, ⟨twoFiles, 0, rows⟩] s ∧
      (deliveredNames [⟨oneFile, 4, []⟩, ⟨twoFiles, 0, rows⟩]).count "b" = 1 := by
  have hnames : twoFiles.names.length = 4 := congrArg List.length twoFiles_names
  have hfewer : oneFile.names.length = 3 := congrArg List.length oneFile_names
  obtain ⟨rows, s, h, hlen⟩ := Scan.two plainMount 4 (by decide) hnames.ge
    (hfewer.le.trans (by decide))
  refine ⟨rows, s, h, (delivered_once_iff h rfl (b_listed (by simp))).mpr ?_⟩
  have hpos : twoFiles.names.idxOf "b" = 3 := by
    rw [twoFiles_names]
    decide
  have hpos' : oneFile.names.idxOf "b" = 2 := by
    rw [oneFile_names]
    decide
  simp [skips, comesBack, ScanPage.page, Page.stop, Page.position, hpos, hpos', hlen]

/-- **A removal between the calls**: `a` has been delivered and is removed, and the next call begins
    behind `b`. -/
theorem removal_skips_entry :
    ¬ ∀ (cfg : MountCfg) (ino : Nat) (pages : List ScanPage) (last : ScanPage)
      (s : Mount ScanEnv) (name : String), Scan cfg ino (last :: pages) s → last.rows = [] →
        (∀ p ∈ last :: pages, p.Lists name) →
          (deliveredNames (last :: pages)).count name = 1 := by
  intro hall
  have hnames : twoFiles.names.length = 4 := congrArg List.length twoFiles_names
  have hfewer : oneFile.names.length = 3 := congrArg List.length oneFile_names
  obtain ⟨rows, s, h, hlen⟩ := Scan.two plainMount 3 (by decide)
    (hnames.ge.trans' (by decide)) hfewer.le
  have honce := hall _ _ _ _ _ "b" h rfl (b_listed (by simp))
  have hrows : rows.map DirRow.name = (twoFiles.names.drop 0).take rows.length :=
    (h.chained.2 _ (List.mem_cons_of_mem _ List.mem_cons_self)).names
  have hnone : ((twoFiles.names.drop 0).take 3).count "b" = 0 := by
    rw [twoFiles_names]
    decide
  have hall' : deliveredNames [⟨oneFile, 3, []⟩, ⟨twoFiles, 0, rows⟩]
      = (twoFiles.names.drop 0).take 3 := by
    rw [← hlen, ← hrows]
    simp [deliveredNames]
  rw [hall', hnone] at honce
  omega

end Relayfs
