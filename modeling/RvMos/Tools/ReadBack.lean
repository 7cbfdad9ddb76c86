/-
Reading files of the host through the file server.

The server is started on a disk that `fsformat` has made.  A path then leads to a file of
the server exactly where it leads to a node of the host, and any number of opens and block
requests, in any order, give the bytes that the host's files have.
-/
import Mathlib.Data.List.Forall2
import RvMos.Fs.Reading
import RvMos.Tools.Formatted

namespace RvMos

open Lib

namespace Fsformat

open Fs (Byte Server At blockVa Err)

/-! ## Paths -/

/-- The node that components lead to. -/
def Node.find (n : Node) : List (List Byte) → Option Node
  | [] => some n
  | c :: cs =>
    match n with
    | .file _ _ => none
    | .dir _ es => (es.find? fun e => e.stored = c).bind fun e => e.find cs

/-- The file at `f` has what the node has. -/
def Shows (t : Server) (f : Word) : Node → Prop
  | .file _ data => ¬t.IsDir f ∧ t.view (Fs.fSize f) = BitVec.ofNat 32 data.length ∧
      ∀ y (h : y < data.length),
        t.byte (blockVa (t.ptr f (y / 4096)) + BitVec.ofNat 32 (y % 4096)) = data.get ⟨y, h⟩
  | .dir _ es => t.IsDir f ∧ t.view (Fs.fSize f) = BitVec.ofNat 32 (4096 * ((es.length + 15) / 16))

/-- The number of blocks with what a node has. -/
def Node.blocks : Node → ℕ
  | .file _ data => (data.length + 4095) / 4096
  | .dir _ es => (es.length + 15) / 16

section Find

variable {m : Image} {t : Server} {p d : Ptr} {node : Node} {es : List Node} {F bs ix G : List ℕ} {n : ℕ}
  {c : List Byte}

/-- The record that the server finds stands for the entry that the host has. -/
def Finds (m : Image) (n : ℕ) (f : Word) (x : Node) : Prop := ∃ q F, f = addr q ∧ Stands m n q x F

/-- No record has a name that no entry of the host has. -/
theorem StandsDir.lookup_none (h : StandsDir m n d es bs ix G) (hs : Seen t m) (hn : n ≤ nblock)
    (hc : c ≠ []) (hes : ∀ e ∈ es, e.stored ≠ c) : t.lookup (addr d) c = none := by
  refine List.find?_eq_none.mpr fun f hf => ?_
  rw [h.files_eq hs hn] at hf
  obtain ⟨j, hj, rfl⟩ := List.mem_map.mp hf
  rw [h.name_eq hs hn (List.mem_range.mp hj), decide_eq_true_iff]
  by_cases hlt : j < es.length
  · rw [dif_pos hlt]
    exact hes _ (List.getElem_mem hlt)
  · rw [dif_neg hlt]
    exact hc.symm

/-- The first record with a name is that of the first entry that the host has. -/
theorem StandsDir.lookup_some {j : ℕ} (h : StandsDir m n d es bs ix G) (hs : Seen t m) (hn : n ≤ nblock)
    (hj : j < es.length) (hfirst : ∀ i (h : i < j), es[i].stored ≠ es[j].stored) :
    t.lookup (addr d) es[j].stored = some (addr (slot bs j)) := by
  have hcount := h.count
  have hfind : (List.range (16 * bs.length)).find?
      ((fun f => decide (t.entryName f = es[j].stored)) ∘ fun i => addr (slot bs i)) = some j := by
    refine List.find?_range_eq_some.mpr ⟨?_, List.mem_range.mpr (by omega), fun i hi => ?_⟩
    · simp only [Function.comp_apply]
      rw [h.name_eq hs hn (by omega), dif_pos hj]
      exact decide_eq_true rfl
    · simp only [Function.comp_apply]
      rw [h.name_eq hs hn (by omega), dif_pos (by omega), decide_eq_false (hfirst i hi)]
      rfl
  unfold Server.lookup
  rw [h.files_eq hs hn, List.find?_map, hfind]
  rfl

/-- A component leads to the entry of that name. -/
theorem StandsDir.child (h : StandsDir m n d es bs ix G) (hs : Seen t m) (hn : n ≤ nblock) (hc : c ≠ []) :
    Option.Rel (Finds m n) (t.child (addr d) c) (es.find? fun e => e.stored = c) := by
  cases hf : es.find? fun e => e.stored = c with
  | none =>
    have hnone : t.child (addr d) c = none := by
      unfold Server.child
      split_ifs
      · exact h.lookup_none hs hn hc fun e he => by simpa using List.find?_eq_none.mp hf e he
      · rfl
    rw [hnone]
    exact .none
  | some e =>
    obtain ⟨he, j, hj, rfl, hfirst⟩ := List.find?_eq_some_iff_getElem.mp hf
    obtain rfl := of_decide_eq_true he
    obtain ⟨F, hst, -⟩ := h.entry hn hj
    rw [Fs.child_eq_lookup hst.rep.named.length (h.isDir hs),
      h.lookup_some hs hn hj fun i hi => by simpa using hfirst i hi]
    exact .some ⟨_, F, rfl, hst⟩

/-- A path leads to a file of the server exactly where it leads to a node of the host. -/
theorem find_below (hs : Seen t m) (hn : n ≤ nblock) (cs : List (List Byte)) (hcs : ∀ c ∈ cs, c ≠ [])
    (h : Stands m n p node F) :
    Option.Rel (Finds m n) (cs.foldlM t.child (addr p)) (node.find cs) := by
  induction cs generalizing p node F with
  | nil => exact .some ⟨p, F, rfl, h⟩
  | cons c cs ih =>
    rw [List.foldlM_cons]
    cases node with
    | file name data =>
      have hnone : t.child (addr p) c = none := if_neg fun hc => h.not_dir hs hc.2
      rw [hnone]
      exact .none
    | dir name es =>
      obtain ⟨bs, ix, G, hd, -⟩ := h.dir
      have hstep := hd.child hs hn (hcs c (List.mem_cons_self ..))
      unfold Node.find
      simp only
      generalize t.child (addr p) c = o at hstep ⊢
      generalize (es.find? fun e => decide (e.stored = c)) = x at hstep ⊢
      cases hstep with
      | none => exact .none
      | some hx =>
        obtain ⟨q, F', rfl, hst⟩ := hx
        exact ih (fun c' hc' => hcs c' (List.mem_cons_of_mem _ hc')) hst

/-- A record shows what its node has. -/
theorem Stands.shows (h : Stands m n p node F) (hs : Seen t m) (hn : n ≤ nblock) : Shows t (addr p) node := by
  have hbig : nblock = 1024 := rfl
  have hsize : t.view (Fs.fSize (addr p)) = m.word p fSize := hs.view h.sits (k := 32) (by omega)
  cases node with
  | dir name es =>
    obtain ⟨bs, ix, G, hd, -⟩ := h.dir
    refine ⟨hd.isDir hs, ?_⟩
    rw [hsize, hd.slots.size, hd.count]
  | file name data =>
    have hr := h.rep
    unfold Rep at hr
    obtain ⟨-, -, hsz, bs, ix, hl, hlen, hh, rfl⟩ := hr
    refine ⟨h.not_dir hs, hsize.trans hsz, fun y hy => ?_⟩
    have hlt : y / 4096 < bs.length := by omega
    have hlong := h.placed.length_lt hn
    rw [List.length_append] at hlong
    have hr := h.placed.range bs[y / 4096] (List.mem_append_left ix (List.getElem_mem hlt))
    have hdata := hh y hy
    rw [List.getD_eq_getElem _ _ hlt] at hdata
    rw [hs.ptr h.sits hl h.placed hn (by omega), List.getD_eq_getElem _ _ hlt, ← hdata]
    have hat := (Fs.at_blockVa (b := BitVec.ofNat 32 bs[y / 4096]) (by
      rw [ofNat_toNat_of_lt (by omega)]
      omega)).add (n := y % 4096) (by omega)
    rw [Nat.zero_add] at hat
    have hidx : Fs.wordIdx (blockVa (BitVec.ofNat 32 bs[y / 4096]) + BitVec.ofNat 32 (y % 4096)) =
        Fin.ofNat 1024 (y % 4096 / 4) := Fin.ext (by rw [hat.wordIdx_val, index_val (by omega)])
    unfold Server.byte pageByte
    rw [hat.byteShift]
    unfold Server.view
    rw [hat.blockOf_eq, hidx, hs.blocks _ hr.1 (by omega)]

/-- A record has a pointer for each block of its node. -/
theorem Stands.ptr {i : ℕ} (h : Stands m n p node F) (hs : Seen t m) (hn : n ≤ nblock) (hi : i < node.blocks) :
    i < 1024 ∧ t.ptr (addr p) i ≠ 0#32 := by
  have hbig : nblock = 1024 := rfl
  obtain ⟨bs, ix, hl, hp, hlen⟩ : ∃ bs ix, Links m p bs ix ∧ Placed p (bs ++ ix) n ∧
      bs.length = node.blocks := by
    cases node with
    | dir name es =>
      obtain ⟨bs, ix, G, hd, -⟩ := h.dir
      exact ⟨bs, ix, hd.slots.links, hd.placed.sublist (List.sublist_append_left ..), hd.count⟩
    | file name data =>
      have hr := h.rep
      unfold Rep at hr
      obtain ⟨-, -, -, bs, ix, hl, hlen, -, rfl⟩ := hr
      exact ⟨bs, ix, hl, h.placed, hlen⟩
  have hlong := hp.length_lt hn
  rw [List.length_append] at hlong
  have hlt : i < bs.length := by omega
  have hr := hp.range bs[i] (List.mem_append_left ix (List.getElem_mem hlt))
  refine ⟨by omega, ?_⟩
  rw [hs.ptr h.sits hl hp hn (by omega), List.getD_eq_getElem _ _ hlt]
  exact ofNat_ne_zero (by omega) (by omega)

end Find

/-! ## What clients are told -/

/-- What a client is told about block `q.2` of the node that the path `q.1` leads to. -/
def Answers (args : List Node) (u : Server) (q : List Byte × ℕ) (r : Except Err Word) : Prop :=
  match (Node.dir [47#8] args).find (Fs.components q.1) with
  | some (.file _ data) => ∃ va, r = .ok va ∧ u.Cached va ∧
      ∀ k < 4096, ∀ h : 4096 * q.2 + k < data.length,
        u.byte (va + BitVec.ofNat 32 k) = data.get ⟨4096 * q.2 + k, h⟩
  | some (.dir _ es) => ∃ va, r = .ok va ∧ u.Cached va ∧
      ∀ j < 16, u.entryName (va + Fs.by2file * BitVec.ofNat 32 j) =
        ((es[16 * q.2 + j]?).map Node.stored).getD []
  | none => ∃ e, r = .error e ∧
      ((∀ c ∈ Fs.components q.1, c.length < Fs.maxNameLen) → e = .notFound)

/-- A client asks for a block that the node has, if the path leads to one. -/
def Within (args : List Node) (q : List Byte × ℕ) : Prop :=
  ∀ x, (Node.dir [47#8] args).find (Fs.components q.1) = some x → q.2 < x.blocks

section Answers

variable {m : Image} {t u : Server} {args : List Node} {bs ix G : List ℕ} {q : List Byte × ℕ}
  {r : Except Err Word}

theorem addr_root : addr sRoot = Fs.sRoot := by decide

theorem Made.find (h : Made m args bs ix G) (hs : Seen t m) (path : List Byte) :
    Option.Rel (Finds m m.nextbno) (t.resolve (Fs.components path))
      ((Node.dir [47#8] args).find (Fs.components path)) := by
  have hfind := find_below hs h.cap _ (Fs.components_ne_nil path) h.stands
  rw [addr_root] at hfind
  exact hfind

/-- A block within the node is one that the server has. -/
theorem Within.asks (hw : Within args q) (h : Made m args bs ix G) (hs : Seen t m) : Fs.Asks t q := by
  intro f hf
  unfold Within at hw
  have hfind := h.find hs q.1
  rw [hf] at hfind
  generalize (Node.dir [47#8] args).find (Fs.components q.1) = x at hfind hw
  cases hfind with
  | some hx =>
    obtain ⟨p, F, rfl, hst⟩ := hx
    exact hst.ptr hs h.cap (hw _ rfl)

theorem Made.answers (h : Made m args bs ix G) (hs : Seen t m) (ht : Fs.OwnTree t)
    (hu : Fs.Touches t.DirWords t u) (hw : Within args q) (hg : Fs.Gets t u q r) : Answers args u q r := by
  have hfind := h.find hs q.1
  have hreach : ∀ f, t.resolve (Fs.components q.1) = some f → t.Reached f := fun f =>
    Fs.reached_resolve (Fs.components_ne_nil q.1)
  unfold Answers
  unfold Within at hw
  unfold Fs.Gets at hg
  generalize (Node.dir [47#8] args).find (Fs.components q.1) = x at hfind hw ⊢
  generalize t.resolve (Fs.components q.1) = f at hfind hreach hg
  cases hfind with
  | none => exact hg
  | @some f x hx =>
    obtain ⟨p, F, rfl, hst⟩ := hx
    obtain ⟨rfl, hc⟩ := hg
    have hr := hreach _ rfl
    obtain ⟨hlt, hne⟩ := hst.ptr hs h.cap (hw _ rfl)
    have hown : t.Owns (addr p) (some q.2) (t.ptr (addr p) q.2) := ⟨hlt, rfl, hne⟩
    have hcap := Fs.lt_capacity ht.mounted (ht.owned _ hr _ _ hown).2.1.1
    have hshow := hst.shows hs h.cap
    cases x with
    | file name data =>
      refine ⟨_, rfl, hc, fun k hk hlen => ?_⟩
      have hbyte := hshow.2.2 _ hlen
      rw [show (4096 * q.2 + k) / 4096 = q.2 by omega, show (4096 * q.2 + k) % 4096 = k by omega] at hbyte
      have hat := (Fs.at_blockVa hcap).add (n := k) (by omega)
      rw [← hbyte]
      unfold Server.byte Server.view
      rw [hat.blockOf_eq, ht.block_looked hr hshow.1 hu hown]
    | dir name es =>
      obtain ⟨bs', ix', G', hd, -⟩ := hst.dir
      have hcount := hd.count
      refine ⟨_, rfl, hc, fun j hj => ?_⟩
      have hb : q.2 < bs'.length := hcount ▸ hw _ rfl
      have hptr := hd.ptr_eq hs h.cap hlt
      have hmem : addr (slot bs' (16 * q.2 + j)) ∈ t.files (addr p) := by
        rw [hd.files_eq hs h.cap]
        exact List.mem_map.mpr ⟨_, List.mem_range.mpr (by omega), rfl⟩
      rw [hptr, ← addr_slot bs' j hj]
      unfold Server.entryName
      rw [ht.toFileTree.bytesAt hu ⟨hr, hshow.1⟩ hmem]
      refine (hd.name_eq hs h.cap (by omega)).trans ?_
      by_cases hin : 16 * q.2 + j < es.length
      · rw [dif_pos hin, List.getElem?_eq_getElem hin]
        rfl
      · rw [dif_neg hin, List.getElem?_eq_none (Nat.not_lt.mp hin)]
        rfl

end Answers

/-! ## From the tool to the clients -/

section Whole

variable {args : List Node} {img : ℕ → Page} {s : Server}

theorem made_of_ok (hok : AllOk args) (himg : fsformat args = .ok img) :
    ∃ m bs ix G, img = image m ∧ Made m args bs ix G := by
  have hne : args ≠ [] := by
    rintro rfl
    cases himg
  have h := fsformat_made hne hok
  split_ifs at h
  · obtain ⟨m, bs, ix, G, he, hm⟩ := h
    exact ⟨m, bs, ix, G, Except.ok.inj (himg.symm.trans he), hm⟩
  · rw [himg] at h
    cases h

/-- `fs_init` on a disk from the tool. -/
theorem wp_fsInit_formatted {Q : Except Err Unit → Server → Prop} (hok : AllOk args)
    (himg : fsformat args = .ok img) (hs : Fs.Unstarted s) (hd : s.disk = sectors img)
    (hQ : ∀ m bs ix G g, Made m args bs ix G → s.disk = sectors (image m) → g <:+ s.grants →
      Seen (s.started g) m → Fs.OwnTree (s.started g) → Q (.ok ()) (s.started g)) :
    Fs.fsInit.wp Q (Fs.Short s) s := by
  obtain ⟨m, bs, ix, G, rfl, hm⟩ := made_of_ok hok himg
  refine Fs.wp_fsInit hs (fun _ hsize g hg => ?_) (fun c hc => ?_) fun _ => id
  · have hseen := hm.seen (g := g) hs hd
    exact hQ m bs ix G g hm hd hg hseen
      (hm.ownTree hseen (Fs.started_mounted hsize) (hm.nblk hd) (hm.used_iff hd))
  · rw [hd, hm.refusal] at hc
    cases hc

end Whole

/-- `fsformat` comes to its end exactly where there is something to put on the disk and its
blocks fit.  It has no check: past the last block it leaves its array. -/
theorem fsformat_fits (args : List Node) (hok : AllOk args) :
    if args = [] then fsformat args = .error (.exit 1)
    else if 3 + allCost 0 args ≤ nblock then ∃ img, fsformat args = .ok img
    else fsformat args = .error .wild := by
  by_cases hne : args = []
  · rw [if_pos hne, hne]
    rfl
  · have h := fsformat_made hne hok
    rw [if_neg hne]
    split_ifs at h ⊢ with hfit
    · obtain ⟨m, bs, ix, G, he, -⟩ := h
      exact ⟨_, he⟩
    · exact h

/-- The file `a` in the directory `d`. -/
def oneDir : List Node := [.dir [100#8] [.file [97#8] [1#8, 2#8, 3#8]]]

theorem oneDir_ok : AllOk oneDir := by
  unfold oneDir
  simp [AllOk, Node.Ok]

theorem oneDir_made : ∃ img, fsformat oneDir = .ok img := by
  have hok : (fsformat oneDir).isOk = true := by decide +kernel
  cases h : fsformat oneDir with
  | ok img => exact ⟨img, rfl⟩
  | error e =>
    rw [h] at hok
    cases hok

/-- A file of 1020 blocks does not fit: it takes an index block, and the root directory one
block. -/
theorem fsformat_fits_file : (∃ img, fsformat oneDir = .ok img) ∧
    fsformat [.file [97#8] (List.replicate 4177920 0#8)] = .error .wild := by
  have hcost : ∀ data : List Byte, allCost 0 [.file [97#8] data] =
      1 + linkCost 0 ((data.length + 4095) / 4096) := fun data => by
    simp [allCost, Node.cost, entryCost, indexCost]
  have hok : ∀ data : List Byte, AllOk [.file [97#8] data] := fun data => by simp [AllOk, Node.Ok]
  have hsmall := fsformat_fits oneDir oneDir_ok
  have hlarge : ∀ data : List Byte, data.length = 4177920 →
      fsformat [.file [97#8] data] = .error .wild := fun data hlen => by
    have h := fsformat_fits [.file [97#8] data] (hok data)
    rw [if_neg (by simp), hcost, hlen, if_neg (by decide)] at h
    exact h
  rw [if_neg (by simp [oneDir]), if_pos (by decide)] at hsmall
  exact ⟨hsmall, hlarge _ List.length_replicate⟩

/-- The file server mounts a disk from `fsformat`.  It sees the tree of the host, with the
types, sizes and bytes that the host has; no two files share a block, and a block is in use
exactly if it is one of the first three or belongs to a file. -/
theorem fs_init_formatted {args : List Node} {img : ℕ → Page} {s : Server} (hok : AllOk args)
    (himg : fsformat args = .ok img) (hs : Fs.Unstarted s) (hd : s.disk = sectors img) :
    Fs.fsInit.wp (fun r t => r = .ok () ∧ Fs.OwnTree t ∧
      (∀ path, Option.Rel (Shows t) (t.resolve (Fs.components path))
        ((Node.dir [47#8] args).find (Fs.components path))) ∧
      (∀ c : Word, t.Used c ↔ c.toNat < 3 + allCost 0 args) ∧
      ∀ c : Word, t.Used c → c.toNat < 3 ∨ ∃ f k, t.Reached f ∧ t.Owns f k c) (Fs.Short s) s := by
  refine wp_fsInit_formatted hok himg hs hd fun m bs ix G g hm hdisk _ hseen htree => ?_
  have hused := hm.used_iff (g := g) hdisk
  refine ⟨rfl, htree, fun path => ?_, fun c => (hm.count ▸ hused c), fun c hc => ?_⟩
  · have hfind := hm.find hseen path
    generalize (Node.dir [47#8] args).find (Fs.components path) = x at hfind ⊢
    generalize (s.started g).resolve (Fs.components path) = f at hfind ⊢
    cases hfind with
    | none => exact .none
    | some hx =>
      obtain ⟨p, F, rfl, hst⟩ := hx
      exact .some (hst.shows hseen hm.cap)
  · by_cases h3 : c.toNat < 3
    · exact .inl h3
    · obtain ⟨f, k, hf, hk⟩ := owner_exists hseen hm.cap _ hm.stands
        (hm.mem_tree (Nat.not_lt.mp h3) ((hused c).mp hc))
      rw [BitVec.ofNat_toNat, BitVec.setWidth_eq] at hk
      exact .inr ⟨f, k, edges_reached hf, hk⟩

theorem fs_init_formatted_oneDir : ∃ img, fsformat oneDir = .ok img ∧
    Fs.fsInit.wp (fun _ t => Fs.OwnTree t ∧ (∃ f, t.resolve [[100#8], [97#8]] = some f ∧
      Shows t f (.file [97#8] [1#8, 2#8, 3#8])) ∧ t.Used 5#32 ∧ ¬t.Used 6#32) (fun _ => False)
      { Fs.beforeInit [] with disk := sectors img } := by
  obtain ⟨img, himg⟩ := oneDir_made
  refine ⟨img, himg, Lib.Sys.wp_mono (fs_init_formatted oneDir_ok himg ⟨rfl, rfl, fun _ _ => rfl⟩ rfl) ?_
    fun c hc => absurd hc.2 (by simp [Fs.beforeInit, Fs.fullTable])⟩
  rintro r t ⟨-, htree, hpath, hused, -⟩
  have hfile := hpath [100#8, 47#8, 97#8]
  rw [show Fs.components [100#8, 47#8, 97#8] = [[100#8], [97#8]] by decide,
    show (Node.dir [47#8] oneDir).find [[100#8], [97#8]] = some (.file [97#8] [1#8, 2#8, 3#8]) by rfl]
    at hfile
  refine ⟨htree, ?_, (hused _).mpr (by decide), fun h => absurd ((hused _).mp h) (by decide)⟩
  generalize t.resolve [[100#8], [97#8]] = f at hfile ⊢
  cases hfile with
  | some h => exact ⟨_, rfl, h⟩

/-- Clients that ask for blocks, in any number and order, get the bytes of the host's files
and the names of its directories, and are told which paths there are not. -/
theorem read_formatted {args : List Node} {img : ℕ → Page} {s : Server} {qs : List (List Byte × ℕ)}
    (hok : AllOk args) (himg : fsformat args = .ok img) (hs : Fs.Unstarted s) (hd : s.disk = sectors img)
    (hqs : ∀ q ∈ qs, Within args q) :
    (do Fs.fsInit; Fs.reads qs).wp
      (fun r u => ∃ rs, r = Except.ok rs ∧ List.Forall₂ (Answers args u) qs rs) (Fs.Short s) s := by
  rw [Lib.Sys.wp_bind]
  refine wp_fsInit_formatted hok himg hs hd fun m bs ix G g hm _ hg hseen htree => ?_
  refine Lib.Sys.wp_mono (Fs.wp_reads htree qs (fun q hq => (hqs q hq).asks hm hseen)
    (refl_of (Fs.Touches _) _)) ?_ fun c hc => ⟨hc.short.1, hg.subset hc.short.2⟩
  rintro _ u ⟨hu, rs, rfl, hrs⟩
  exact ⟨rs, rfl, ((List.forall₂_and_left _ _).mpr ⟨hqs, hrs⟩).imp fun q r ⟨hq, hg⟩ =>
    hm.answers hseen htree hu.touches hq hg⟩

theorem read_formatted_oneDir : ∃ img, fsformat oneDir = .ok img ∧
    (do Fs.fsInit; Fs.reads [([47#8, 100#8, 47#8, 97#8], 0), ([98#8], 7)]).wp
      (fun r u => ∃ va, r = Except.ok [Except.ok va, Except.error Err.notFound] ∧ u.byte (va + 2#32) = 3#8)
      (fun _ => False) { Fs.beforeInit [] with disk := sectors img } := by
  obtain ⟨img, himg⟩ := oneDir_made
  have h1 : (Node.dir [47#8] oneDir).find (Fs.components [47#8, 100#8, 47#8, 97#8]) =
      some (.file [97#8] [1#8, 2#8, 3#8]) := by
    rw [show Fs.components [47#8, 100#8, 47#8, 97#8] = [[100#8], [97#8]] by decide]
    rfl
  have h2 : (Node.dir [47#8] oneDir).find (Fs.components [98#8]) = none := by
    rw [show Fs.components [98#8] = [[98#8]] by decide]
    rfl
  refine ⟨img, himg, Lib.Sys.wp_mono (read_formatted oneDir_ok himg ⟨rfl, rfl, fun _ _ => rfl⟩ rfl ?_) ?_
    fun c hc => absurd hc.2 (by simp [Fs.beforeInit, Fs.fullTable])⟩
  · intro q hq x hx
    rcases List.mem_cons.mp hq with rfl | hq
    · rw [h1] at hx
      obtain rfl := Option.some.inj hx
      decide
    · obtain rfl := List.mem_singleton.mp hq
      rw [h2] at hx
      cases hx
  · rintro _ u ⟨rs, rfl, hrs⟩
    cases hrs with
    | cons ha hrs =>
      cases hrs with
      | cons hb hrs =>
        cases hrs
        unfold Answers at ha hb
        rw [h1] at ha
        rw [h2] at hb
        obtain ⟨va, rfl, -, hbytes⟩ := ha
        obtain ⟨e, rfl, he⟩ := hb
        rw [he (by decide)]
        exact ⟨va, rfl, hbytes 2 (by decide) (by decide)⟩

end Fsformat
end RvMos
