/-
The packet filter of the gate (3rd/skynet/lualib-src/lua-netpack.c). Clients write packages of a 2-byte big-endian size
and that many bytes; the socket thread hands over whatever bytes have arrived on a connection. `filter` puts the packages
together again, for all connections at once:

- a connection's unfinished package stands in a hash table of chains (`hash`), keyed by the fd; it is taken out when
  bytes of that fd arrive, and put back if it is still unfinished;
- if the bytes end exactly with a package, it is returned at once (`data`); otherwise all complete packages go to a ring
  buffer that grows (`queue`), and `more` tells the caller to `pop` them.

The queue is NULL before the first package that needs it (`none`). Buffers are byte lists, so sizes are their lengths;
freeing them is left out. `Is q rest packs` is the abstraction: `rest fd` are the bytes of `fd` that do not make a package
yet, and `packs` the packages waiting in the queue. `filterData_spec`: one message of the socket thread adds its bytes to
those of its fd, and what the filter returns or queues are the packages of the bytes so far.
-/
import OwliesServer.Core.Reassembly
import OwliesServer.Core.Ring

namespace OwliesServer.Netpack

open OwliesServer.CChar OwliesServer.Framing

/-! ## Model -/

abbrev Fd := ℕ

def QUEUESIZE : ℕ := 1024

def HASHSIZE : ℕ := 4096

/-- `struct netpack` -/
structure Pack where
  id : Fd
  buffer : Bytes
deriving DecidableEq, Repr, Inhabited

/-- how much of a package has arrived -/
inductive Progress where
  /-- `read` is −1: the first byte of the size -/
  | header (header : Byte)
  /-- the size, and the first `read` bytes -/
  | body (size : ℕ) (buffer : Bytes) (short : buffer.length < size) (size_lt : size < 2 ^ 16)

/-- `struct uncomplete` -/
structure Uncomplete where
  id : Fd
  progress : Progress

structure Queue where
  hash : ℕ → List Uncomplete
  queue : Ring Pack

/-- what `filter` returns besides the queue -/
inductive Message where
  | data (fd : Fd) (msg : Bytes)
  | more
  | error (fd : Fd) (msg : Bytes)
  | opened (fd : Fd) (addr : Bytes)
  | close (fd : Fd)
  | warning (fd : Fd) (size : ℕ)
deriving DecidableEq, Repr

def hashFd (fd : Fd) : ℕ := ((fd >>> 24) + (fd >>> 12) + fd) % 2 ^ 32 % HASHSIZE

/-- a chain without the element of `fd`, and that element -/
def unlink (fd : Fd) : List Uncomplete → Option (Uncomplete × List Uncomplete)
  | [] => none
  | uc :: next => if uc.id = fd then some (uc, next) else (unlink fd next).map fun p => (p.1, uc :: p.2)

def findUncomplete (q : Option Queue) (fd : Fd) : Option Progress × Option Queue :=
  match q with
  | none => (none, none)
  | some q =>
    match unlink fd (q.hash (hashFd fd)) with
    | none => (none, some q)
    | some (uc, next) => (some uc.progress, some { q with hash := Function.update q.hash (hashFd fd) next })

def getQueue : Option Queue → Queue
  | none => ⟨fun _ => [], Ring.empty QUEUESIZE (fun _ => default) (by decide)⟩
  | some q => q

@[simp] theorem getQueue_some (q : Queue) : getQueue (some q) = q := rfl

/-- `expand_queue` adds `QUEUESIZE` slots -/
def expandQueue : Ring.Growth := ⟨fun cap => cap + QUEUESIZE, fun cap _ => by unfold QUEUESIZE; omega⟩

def pushData (q : Option Queue) (fd : Fd) (buffer : Bytes) : Queue :=
  { getQueue q with queue := (getQueue q).queue.push expandQueue (fun _ => default) ⟨fd, buffer⟩ }

def saveUncomplete (q : Option Queue) (fd : Fd) (uc : Progress) : Queue :=
  { getQueue q with
    hash := Function.update (getQueue q).hash (hashFd fd) (⟨fd, uc⟩ :: (getQueue q).hash (hashFd fd)) }

def readSize (b0 b1 : Byte) : ℕ := b0.toNat <<< 8 ||| b1.toNat

theorem readSize_eq (b0 b1 : Byte) : readSize b0 b1 = b0.toNat * 2 ^ 8 + b1.toNat := by
  rw [readSize, ← Nat.shiftLeft_add_eq_or_of_lt b1.isLt, Nat.shiftLeft_eq]

theorem readSize_lt (b0 b1 : Byte) : readSize b0 b1 < 2 ^ 16 := by
  have h0 := b0.isLt
  have h1 := b1.isLt
  rw [readSize_eq]
  omega

/-- all packages of the buffer go to the queue, the last one to the hash table if it is unfinished -/
def pushMore (q : Option Queue) (fd : Fd) (buffer : Bytes) : Option Queue :=
  match buffer with
  -- no call has an empty buffer
  | [] => q
  | [b] => some (saveUncomplete q fd (.header b))
  | b0 :: b1 :: buffer =>
    if h : buffer.length < readSize b0 b1 then
      some (saveUncomplete q fd (.body (readSize b0 b1) buffer h (readSize_lt b0 b1)))
    else if 0 < (buffer.drop (readSize b0 b1)).length then
      pushMore (some (pushData q fd (buffer.take (readSize b0 b1)))) fd (buffer.drop (readSize b0 b1))
    else some (pushData q fd (buffer.take (readSize b0 b1)))
termination_by buffer.length
decreasing_by simp only [List.length_drop, List.length_cons]; omega

/-- an unfinished package whose size is known, before the new bytes are copied into it -/
structure Filling where
  size : ℕ
  read : Bytes
  size_lt : size < 2 ^ 16

/-- the size is completed if only its first byte was there; the second component is what is left of the buffer -/
def fill (uc : Progress) (b : Byte) (bs : Bytes) : Filling × Bytes :=
  match uc with
  | .header header => (⟨readSize header b, [], readSize_lt header b⟩, bs)
  | .body size buffer _ size_lt => (⟨size, buffer, size_lt⟩, b :: bs)

/-- `filter_data_` on the bytes `b :: bs`; the socket thread reports no empty reads -/
def filterData (q : Option Queue) (fd : Fd) (b : Byte) (bs : Bytes) : Option Queue × Option Message :=
  match findUncomplete q fd with
  | (some uc, q) =>
    let f := (fill uc b bs).1
    let buffer := (fill uc b bs).2
    let need := f.size - f.read.length
    if h : buffer.length < need then
      (some (saveUncomplete q fd (.body f.size (f.read ++ buffer) (by rw [List.length_append]; omega) f.size_lt)), none)
    else if (buffer.drop need).length = 0 then (q, some (.data fd (f.read ++ buffer.take need)))
    else (pushMore (some (pushData q fd (f.read ++ buffer.take need))) fd (buffer.drop need), some .more)
  | (none, q) =>
    match bs with
    | [] => (some (saveUncomplete q fd (.header b)), none)
    | b1 :: buffer =>
      if h : buffer.length < readSize b b1 then
        (some (saveUncomplete q fd (.body (readSize b b1) buffer h (readSize_lt b b1))), none)
      else if buffer.length = readSize b b1 then (q, some (.data fd buffer))
      else
        (pushMore (some (pushData q fd (buffer.take (readSize b b1)))) fd (buffer.drop (readSize b b1)), some .more)

/-- bytes lead to packages and nothing else -/
theorem filterData_message (q : Option Queue) (fd : Fd) (b : Byte) (bs : Bytes) :
    (filterData q fd b bs).2 = none ∨ (filterData q fd b bs).2 = some .more ∨
      ∃ msg, (filterData q fd b bs).2 = some (.data fd msg) := by
  unfold filterData
  split
  · dsimp only
    split_ifs
    · exact .inl rfl
    · exact .inr (.inr ⟨_, rfl⟩)
    · exact .inr (.inl rfl)
  · split
    · exact .inl rfl
    · split_ifs
      · exact .inl rfl
      · exact .inr (.inr ⟨_, rfl⟩)
      · exact .inr (.inl rfl)

def closeUncomplete (q : Option Queue) (fd : Fd) : Option Queue := (findUncomplete q fd).2

/-- `struct skynet_socket_message`; a read is never empty -/
inductive SocketMessage where
  | data (id : Fd) (b : Byte) (bs : Bytes)
  | connect (id : Fd)
  | close (id : Fd)
  | accept (ud : Fd) (addr : Bytes)
  | error (id : Fd) (msg : Bytes)
  | warning (id : Fd) (ud : ℕ)
deriving DecidableEq, Repr

/-- `lfilter` -/
def filter (q : Option Queue) : SocketMessage → Option Queue × Option Message
  | .data id b bs => filterData q id b bs
  | .connect _ => (q, none)
  | .close id => (closeUncomplete q id, some (.close id))
  | .accept ud addr => (q, some (.opened ud addr))
  | .error id msg => (closeUncomplete q id, some (.error id msg))
  | .warning id ud => (q, some (.warning id ud))

/-- `lpop` -/
def pop : Option Queue → Option (Pack × Option Queue)
  | none => none
  | some q => q.queue.pop.map fun p => (p.1, some { q with queue := p.2 })

/-! ## Packages -/

/-- one package off the front -/
def readPack : Reader Bytes := fun input => do
  let (size, rest) ← readBe16 input
  readBytes size rest

theorem readPack_cons_cons (b0 b1 : Byte) (s : Bytes) :
    readPack (b0 :: b1 :: s) =
      if readSize b0 b1 ≤ s.length then some (s.take (readSize b0 b1), s.drop (readSize b0 b1)) else none := by
  simp [readPack, readBe16, readBytes, readSize_eq]

theorem streaming_readPack : Streaming readPack where
  stable := by
    intro s a rest h t
    match s with
    | [] => exact absurd h (by simp [readPack, readBe16])
    | [b] => exact absurd h (by simp [readPack, readBe16])
    | b0 :: b1 :: s =>
      rw [readPack_cons_cons] at h
      rw [List.cons_append, List.cons_append, readPack_cons_cons]
      split_ifs at h with hle
      simp only [Option.some.injEq, Prod.mk.injEq] at h
      obtain ⟨rfl, rfl⟩ := h
      rw [if_pos (by rw [List.length_append]; omega), List.take_append_of_le_length hle,
        List.drop_append_of_le_length hle]
  shorter := by
    intro s a rest h
    match s with
    | [] => exact absurd h (by simp [readPack, readBe16])
    | [b] => exact absurd h (by simp [readPack, readBe16])
    | b0 :: b1 :: s =>
      rw [readPack_cons_cons] at h
      split_ifs at h
      simp only [Option.some.injEq, Prod.mk.injEq] at h
      rw [← h.2, List.length_drop, List.length_cons, List.length_cons]
      omega

/-- the packages of a byte string, and the bytes of the unfinished one -/
def packages (s : Bytes) : List Bytes × Bytes := split readPack s

theorem packages_short {b0 b1 : Byte} {s : Bytes} (h : s.length < readSize b0 b1) :
    packages (b0 :: b1 :: s) = ([], b0 :: b1 :: s) :=
  split_of_none (by rw [readPack_cons_cons, if_neg (by omega)])

theorem packages_long {b0 b1 : Byte} {s : Bytes} (h : readSize b0 b1 ≤ s.length) :
    packages (b0 :: b1 :: s) =
      (s.take (readSize b0 b1) :: (packages (s.drop (readSize b0 b1))).1, (packages (s.drop (readSize b0 b1))).2) :=
  split_of_some streaming_readPack (by rw [readPack_cons_cons, if_pos h])

theorem packages_nil : packages [] = ([], []) := rfl

theorem packages_single (b : Byte) : packages [b] = ([], [b]) := rfl

/-- a package as its sender writes it -/
def written (msg : Bytes) : Bytes := be16 (BitVec.ofNat 16 msg.length) ++ msg

theorem be16_readSize (b0 b1 : Byte) : be16 (BitVec.ofNat 16 (readSize b0 b1)) = [b0, b1] := by
  have h0 := b0.isLt
  have h1 := b1.isLt
  simp only [be16, List.cons.injEq, and_true]
  refine ⟨?_, ?_⟩ <;> apply BitVec.eq_of_toNat_eq <;>
    simp only [BitVec.toNat_setWidth, BitVec.toNat_ushiftRight, BitVec.toNat_ofNat, Nat.shiftRight_eq_div_pow,
      readSize_eq] <;> omega

/-- the length of a package is read from two bytes -/
theorem length_packages (s : Bytes) : ∀ msg ∈ (packages s).1, msg.length < 2 ^ 16 := by
  refine split_forall streaming_readPack (P := fun msg : Bytes => msg.length < 2 ^ 16) (fun s a rest h => ?_) s
  match s with
  | [] => exact absurd h (by simp [readPack, readBe16])
  | [b] => exact absurd h (by simp [readPack, readBe16])
  | b0 :: b1 :: s =>
    rw [readPack_cons_cons] at h
    split_ifs at h with hle
    obtain ⟨rfl, rfl⟩ := Prod.mk.injEq .. ▸ Option.some.inj h
    rw [List.length_take_of_le hle]
    exact readSize_lt b0 b1

theorem packages_append (s : Bytes) : (packages s).1.flatMap written ++ (packages s).2 = s := by
  refine split_concat streaming_readPack written (fun s a rest h => ?_) s
  match s with
  | [] => exact absurd h (by simp [readPack, readBe16])
  | [b] => exact absurd h (by simp [readPack, readBe16])
  | b0 :: b1 :: s =>
    rw [readPack_cons_cons] at h
    split_ifs at h with hle
    obtain ⟨rfl, rfl⟩ := Prod.mk.injEq .. ▸ Option.some.inj h
    rw [written, List.length_take_of_le hle, be16_readSize, List.append_assoc, List.take_append_drop]
    rfl

/-! ## The abstraction -/

/-- the bytes an unfinished package has so far -/
def Progress.bytes : Progress → Bytes
  | .header b => [b]
  | .body size buffer _ _ => be16 (BitVec.ofNat 16 size) ++ buffer

def bytesOf (uc : Option Progress) : Bytes := (uc.map Progress.bytes).getD []

theorem Progress.bytes_ne_nil (p : Progress) : p.bytes ≠ [] := by
  cases p <;> simp [Progress.bytes, be16]

/-- the element of `fd` in a chain -/
def lookup (fd : Fd) (chain : List Uncomplete) : Option Progress :=
  (chain.find? fun uc => uc.id = fd).map Uncomplete.progress

/-- `rest fd` are the bytes of `fd` that make no package yet, `packs` the packages in the queue -/
structure Is (q : Option Queue) (rest : Fd → Bytes) (packs : List Pack) : Prop where
  nodup : ∀ h, (((getQueue q).hash h).map Uncomplete.id).Nodup
  rest_eq : ∀ fd, bytesOf (lookup fd ((getQueue q).hash (hashFd fd))) = rest fd
  packs_eq : (getQueue q).queue.contents = packs

theorem is_none : Is none (fun _ => []) [] := by
  refine ⟨fun h => List.nodup_nil, fun fd => rfl, ?_⟩
  exact Ring.contents_empty _ _ _

theorem bytesOf_eq_nil {uc : Option Progress} : bytesOf uc = [] ↔ uc = none := by
  cases uc with
  | none => simp [bytesOf]
  | some p => simp [bytesOf, p.bytes_ne_nil]

/-! ## Chains -/

theorem lookup_eq_none {fd : Fd} {chain : List Uncomplete} :
    lookup fd chain = none ↔ fd ∉ chain.map Uncomplete.id := by
  simp [lookup, List.find?_eq_none]

theorem lookup_cons (fd : Fd) (uc : Uncomplete) (chain : List Uncomplete) :
    lookup fd (uc :: chain) = if uc.id = fd then some uc.progress else lookup fd chain := by
  by_cases h : uc.id = fd <;> simp [lookup, h]

theorem unlink_eq_none {fd : Fd} {chain : List Uncomplete} (h : unlink fd chain = none) : lookup fd chain = none := by
  induction chain with
  | nil => rfl
  | cons uc chain ih =>
    rw [unlink] at h
    split_ifs at h with hid
    rw [lookup_cons, if_neg hid]
    exact ih (Option.map_eq_none_iff.1 h)

/-- what is taken out of a chain, and what stays -/
theorem unlink_eq_some {fd : Fd} {chain next : List Uncomplete} {uc : Uncomplete}
    (h : unlink fd chain = some (uc, next)) (hn : (chain.map Uncomplete.id).Nodup) :
    lookup fd chain = some uc.progress ∧ (next.map Uncomplete.id).Nodup ∧ lookup fd next = none ∧
      (∀ fd', fd' ≠ fd → lookup fd' next = lookup fd' chain) ∧ next.map Uncomplete.id ⊆ chain.map Uncomplete.id := by
  induction chain generalizing next with
  | nil => exact absurd h (by simp [unlink])
  | cons uc' chain ih =>
    rw [List.map_cons, List.nodup_cons] at hn
    rw [unlink] at h
    split_ifs at h with hid
    · obtain ⟨rfl, rfl⟩ := Prod.mk.injEq .. ▸ Option.some.inj h
      refine ⟨by rw [lookup_cons, if_pos hid], hn.2, lookup_eq_none.2 (hid ▸ hn.1), ?_, List.subset_cons_self _ _⟩
      intro fd' hfd'
      rw [lookup_cons, if_neg (by rw [hid]; exact hfd'.symm)]
    · obtain ⟨⟨uc'', next'⟩, hu, hp⟩ := Option.map_eq_some_iff.1 h
      obtain ⟨rfl, rfl⟩ := Prod.mk.injEq .. ▸ hp
      obtain ⟨hl, hnd, hnone, hother, hsub⟩ := ih hu hn.2
      refine ⟨by rw [lookup_cons, if_neg hid, hl], ?_, by rw [lookup_cons, if_neg hid, hnone], ?_, ?_⟩
      · exact List.nodup_cons.2 ⟨fun hmem => hn.1 (hsub hmem), hnd⟩
      · intro fd' hfd'
        rw [lookup_cons, lookup_cons, hother fd' hfd']
      · exact List.cons_subset_cons _ hsub

/-! ## What the operations do -/

section Operations

variable {q : Option Queue} {rest : Fd → Bytes} {packs : List Pack}

/-- the unfinished package of `fd` is taken out -/
theorem is_findUncomplete (hq : Is q rest packs) (fd : Fd) :
    bytesOf (findUncomplete q fd).1 = rest fd ∧ Is (findUncomplete q fd).2 (Function.update rest fd []) packs := by
  have hrest : ∀ (hash : ℕ → List Uncomplete), (∀ fd', fd' ≠ fd → lookup fd' (hash (hashFd fd')) =
      lookup fd' ((getQueue q).hash (hashFd fd'))) → lookup fd (hash (hashFd fd)) = none →
      ∀ fd', bytesOf (lookup fd' (hash (hashFd fd'))) = Function.update rest fd [] fd' := by
    intro hash hother hnone fd'
    by_cases hfd : fd' = fd
    · rw [hfd, hnone, Function.update_self]
      rfl
    · rw [Function.update_of_ne hfd, hother fd' hfd, hq.rest_eq]
  cases q with
  | none =>
    refine ⟨hq.rest_eq fd, hq.nodup, ?_, hq.packs_eq⟩
    exact hrest _ (fun _ _ => rfl) rfl
  | some q =>
    rw [findUncomplete]
    cases hu : unlink fd (q.hash (hashFd fd)) with
    | none =>
      have hnone := unlink_eq_none hu
      have hfd := hq.rest_eq fd
      rw [getQueue_some, hnone] at hfd
      exact ⟨hfd, hq.nodup, hrest _ (fun _ _ => rfl) hnone, hq.packs_eq⟩
    | some p =>
      obtain ⟨uc, next⟩ := p
      obtain ⟨hl, hnd, hnone, hother, -⟩ := unlink_eq_some hu (hq.nodup _)
      have hfd := hq.rest_eq fd
      rw [getQueue_some, hl] at hfd
      refine ⟨hfd, ?_, hrest _ ?_ ?_, hq.packs_eq⟩
      · intro h
        by_cases hh : h = hashFd fd
        · simpa [hh] using hnd
        · simpa [hh] using hq.nodup h
      · intro fd' hfd'
        by_cases hh : hashFd fd' = hashFd fd
        · simp [hh, hother fd' hfd']
        · simp [hh]
      · simpa using hnone

/-- an unfinished package is put into the table; `fd` has no other one there -/
theorem is_saveUncomplete (hq : Is q rest packs) (fd : Fd) (hfd : rest fd = []) (uc : Progress) :
    Is (some (saveUncomplete q fd uc)) (Function.update rest fd uc.bytes) packs := by
  have hnone : lookup fd ((getQueue q).hash (hashFd fd)) = none := bytesOf_eq_nil.1 ((hq.rest_eq fd).trans hfd)
  refine ⟨?_, ?_, hq.packs_eq⟩
  · intro h
    by_cases hh : h = hashFd fd
    · subst hh
      simpa [saveUncomplete] using ⟨by simpa using lookup_eq_none.1 hnone, hq.nodup _⟩
    · simpa [saveUncomplete, hh] using hq.nodup h
  · intro fd'
    by_cases hfd' : fd' = fd
    · subst hfd'
      simp [saveUncomplete, lookup_cons, bytesOf]
    · rw [Function.update_of_ne hfd', ← hq.rest_eq fd']
      by_cases hh : hashFd fd' = hashFd fd
      · simp [saveUncomplete, hh, lookup_cons, Ne.symm hfd']
      · simp [saveUncomplete, hh]

theorem is_pushData (hq : Is q rest packs) (fd : Fd) (buffer : Bytes) :
    Is (some (pushData q fd buffer)) rest (packs ++ [⟨fd, buffer⟩]) := by
  refine ⟨hq.nodup, hq.rest_eq, ?_⟩
  rw [← hq.packs_eq]
  exact Ring.contents_push _ _ _ _

/-- everything in the buffer is put away -/
theorem is_pushMore (hq : Is q rest packs) (fd : Fd) (hfd : rest fd = []) (buffer : Bytes) :
    Is (pushMore q fd buffer) (Function.update rest fd (packages buffer).2)
      (packs ++ (packages buffer).1.map (Pack.mk fd)) := by
  fun_induction pushMore q fd buffer generalizing packs with
  | case1 q =>
    have hself : Function.update rest fd [] = rest := by rw [← hfd, Function.update_eq_self]
    rwa [packages_nil, List.map_nil, List.append_nil, hself]
  | case2 q b =>
    rw [packages_single, List.map_nil, List.append_nil]
    exact is_saveUncomplete hq fd hfd (.header b)
  | case3 q b0 b1 buffer h =>
    rw [packages_short h, List.map_nil, List.append_nil]
    have hs := is_saveUncomplete hq fd hfd (.body (readSize b0 b1) buffer h (readSize_lt b0 b1))
    rwa [Progress.bytes, be16_readSize] at hs
  | case4 q b0 b1 buffer h hmore ih =>
    rw [packages_long (by omega), List.map_cons, List.append_cons]
    exact ih (is_pushData hq fd _)
  | case5 q b0 b1 buffer h hmore =>
    have hnil : buffer.drop (readSize b0 b1) = [] := List.eq_nil_of_length_eq_zero (by omega)
    have hself : Function.update rest fd [] = rest := by rw [← hfd, Function.update_eq_self]
    rw [packages_long (by omega), hnil, packages_nil, List.map_singleton, hself]
    exact is_pushData hq fd _

/-- the bytes of an unfinished package and the new ones: the size, then what the package has, then the buffer -/
theorem bytes_append_fill (uc : Progress) (b : Byte) (bs : Bytes) :
    uc.bytes ++ b :: bs = be16 (BitVec.ofNat 16 (fill uc b bs).1.size) ++ (fill uc b bs).1.read ++ (fill uc b bs).2 ∧
      (fill uc b bs).1.read.length ≤ (fill uc b bs).1.size := by
  cases uc with
  | header b0 => exact ⟨by simp [Progress.bytes, fill, be16_readSize], Nat.zero_le _⟩
  | body size buffer short size_lt => exact ⟨by simp [Progress.bytes, fill], short.le⟩

theorem packages_sized {size : ℕ} (hsize : size < 2 ^ 16) (s : Bytes) :
    packages (be16 (BitVec.ofNat 16 size) ++ s) =
      if size ≤ s.length then (s.take size :: (packages (s.drop size)).1, (packages (s.drop size)).2)
      else ([], be16 (BitVec.ofNat 16 size) ++ s) := by
  have hread : readPack (be16 (BitVec.ofNat 16 size) ++ s) = readBytes size s := by
    rw [readPack, reads_be16 size hsize s]
    rfl
  split_ifs with h
  · exact split_of_some streaming_readPack (by rw [hread, readBytes, if_pos h])
  · exact split_of_none (by rw [hread, readBytes, if_neg h])

/-- what the packages of one message become: nothing yet, one returned, or several queued -/
inductive Delivers (fd : Fd) (packs : List Pack) (msgs : List Bytes) : Option Message → List Pack → Prop where
  | nothing (h : msgs = []) : Delivers fd packs msgs none packs
  | returned (msg : Bytes) (h : msgs = [msg]) : Delivers fd packs msgs (some (.data fd msg)) packs
  | queued : Delivers fd packs msgs (some .more) (packs ++ msgs.map (Pack.mk fd))

/-- the packages of an unfinished package `read` and a buffer that finishes it -/
theorem packages_finished {size : ℕ} (hsize : size < 2 ^ 16) {read buffer : Bytes} (hread : read.length ≤ size)
    (hbuf : size - read.length ≤ buffer.length) :
    packages (be16 (BitVec.ofNat 16 size) ++ (read ++ buffer)) =
      ((read ++ buffer.take (size - read.length)) :: (packages (buffer.drop (size - read.length))).1,
        (packages (buffer.drop (size - read.length))).2) := by
  rw [packages_sized hsize, if_pos (by rw [List.length_append]; omega), List.take_append, List.take_of_length_le hread,
    List.drop_append, List.drop_eq_nil_of_le hread, List.nil_append]

/-- the packages behind the first one are queued with it -/
theorem delivers_pushMore {fd : Fd} (hq : Is q rest packs) (hfd : rest fd = []) (msg buffer : Bytes) :
    ∃ packs', Is (pushMore (some (pushData q fd msg)) fd buffer) (Function.update rest fd (packages buffer).2) packs' ∧
      Delivers fd packs (msg :: (packages buffer).1) (some .more) packs' := by
  refine ⟨_, is_pushMore (is_pushData hq fd msg) fd hfd buffer, ?_⟩
  rw [List.append_assoc, List.singleton_append, ← List.map_cons]
  exact .queued

/-- **One message of the socket thread.** Its bytes are added to those of its fd; the complete packages among them are
delivered, and the others wait. -/
theorem filterData_spec (hq : Is q rest packs) (fd : Fd) (b : Byte) (bs : Bytes) :
    ∃ packs', Is (filterData q fd b bs).1 (Function.update rest fd (packages (rest fd ++ b :: bs)).2) packs' ∧
      Delivers fd packs (packages (rest fd ++ b :: bs)).1 (filterData q fd b bs).2 packs' := by
  obtain ⟨hbytes, hfind⟩ := is_findUncomplete hq fd
  have hfd : Function.update rest fd [] fd = [] := Function.update_self _ _ _
  have hidem : ∀ s, Function.update (Function.update rest fd []) fd s = Function.update rest fd s :=
    fun s => Function.update_idem _ _ _
  rw [filterData]
  generalize findUncomplete q fd = found at hbytes hfind
  obtain ⟨uc, q'⟩ := found
  cases uc with
  | some uc =>
    obtain ⟨hfill, hle⟩ := bytes_append_fill uc b bs
    have hlt := (fill uc b bs).1.size_lt
    replace hbytes : rest fd = uc.bytes := hbytes.symm
    rw [hbytes, hfill, List.append_assoc]
    dsimp only
    split_ifs with hshort hend
    · -- still unfinished
      rw [packages_sized hlt, if_neg (by rw [List.length_append]; omega), ← hidem]
      exact ⟨packs, is_saveUncomplete hfind fd hfd _, .nothing rfl⟩
    · rw [packages_finished hlt hle (by omega), List.eq_nil_of_length_eq_zero hend, packages_nil]
      exact ⟨packs, hfind, .returned _ rfl⟩
    · rw [packages_finished hlt hle (by omega), ← hidem]
      exact delivers_pushMore hfind hfd _ _
  | none =>
    replace hbytes : rest fd = [] := hbytes.symm
    rw [hbytes, List.nil_append]
    cases bs with
    | nil =>
      rw [packages_single, ← hidem]
      exact ⟨packs, is_saveUncomplete hfind fd hfd (.header b), .nothing rfl⟩
    | cons b1 buffer =>
      dsimp only
      split_ifs with hshort hend
      · rw [packages_short hshort, ← hidem]
        have hsave := is_saveUncomplete hfind fd hfd (.body (readSize b b1) buffer hshort (readSize_lt b b1))
        rw [Progress.bytes, be16_readSize] at hsave
        exact ⟨packs, hsave, .nothing rfl⟩
      · rw [packages_long hend.ge, ← hend, List.drop_length, List.take_length, packages_nil]
        exact ⟨packs, hfind, .returned _ rfl⟩
      · rw [packages_long (by omega), ← hidem]
        exact delivers_pushMore hfind hfd _ _

theorem is_closeUncomplete (hq : Is q rest packs) (fd : Fd) :
    Is (closeUncomplete q fd) (Function.update rest fd []) packs := (is_findUncomplete hq fd).2

/-- the oldest package is taken out of the queue -/
theorem pop_spec (hq : Is q rest packs) :
    (pop q = none ∧ packs = []) ∨ ∃ p q' packs', pop q = some (p, q') ∧ packs = p :: packs' ∧ Is q' rest packs' := by
  cases q with
  | none => exact .inl ⟨rfl, hq.packs_eq.symm.trans is_none.packs_eq⟩
  | some q =>
    rcases q.queue.pop_eq with ⟨hp, hc⟩ | ⟨p, r, hp, hc⟩
    · exact .inl ⟨by rw [pop, hp]; rfl, hq.packs_eq.symm.trans hc⟩
    · refine .inr ⟨p, some { q with queue := r }, r.contents, by rw [pop, hp]; rfl, hq.packs_eq.symm.trans hc, ?_⟩
      exact ⟨hq.nodup, hq.rest_eq, rfl⟩

end Operations

end OwliesServer.Netpack
