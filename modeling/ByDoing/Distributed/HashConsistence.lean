import Mathlib.Order.Fin.Basic
import ByDoing.Lib.Decimal
import ByDoing.Lib.OrderedMap
import ByDoing.Lib.Search

/-!
This module contains the two programs for consistent hashing, without and with virtual nodes. Strings
are their bytes and `getHash` is `std::hash<std::string>`. `none` is the iterator of an empty map, which
must not be followed. Both programs route a key to the next node around the ring of hashes, so a node
that comes or goes matters only to the keys in front of it.
-/

namespace HashConsistence

def SizeT : Type := Fin 18446744073709551616

instance : LinearOrder SizeT := Fin.instLinearOrder

abbrev Str := List UInt8

abbrev HashMap := OrderedMap SizeT Str

def putAll (getHash : Str → SizeT) (names : List Str) (m : HashMap) : HashMap :=
  names.foldl (fun m name => m.insert (getHash name) name) m

-- The iterator of `upper_bound`, or `begin()` if that is `end()`.
def findNode (getHash : Str → SizeT) (m : HashMap) (key : Str) : Option Str :=
  let hash := getHash key
  match m.upperBound hash with
  | some it => some it.snd
  | none => m.begin.map Prod.snd

namespace NoVirtualNode

def buildMap (getHash : Str → SizeT) (serverList : List Str) : HashMap :=
  putAll getHash serverList .empty

def getServer (getHash : Str → SizeT) (serverList : List Str) (key : Str) : Option Str :=
  findNode getHash (buildMap getHash serverList) key

end NoVirtualNode

namespace VirtualNode

def VIRTUAL_NODE_NUM : Nat := 5

-- `server + "&&VN" + std::to_string(j)`
def virtualNodeName (server : Str) (j : Nat) : Str :=
  server ++ [38, 38, 86, 78] ++ Decimal.nat j

def virtualNodes (server : Str) : List Str :=
  (List.range VIRTUAL_NODE_NUM).map (virtualNodeName server)

def buildMap (getHash : Str → SizeT) (serverList : List Str) : HashMap :=
  serverList.foldl (fun m server => putAll getHash (virtualNodes server) m) .empty

-- `server_name.substr(0, server_name.find("&"))`
def serverName (name : Str) : Str :=
  match Search.find [38] name with
  | some pos => name.take pos
  | none => name

def getServer (getHash : Str → SizeT) (serverList : List Str) (key : Str) : Option Str :=
  (findNode getHash (buildMap getHash serverList) key).map serverName

end VirtualNode

def NoCollision (getHash : Str → SizeT) (names : List Str) : Prop :=
  ∀ a ∈ names, ∀ b ∈ names, getHash a = getHash b → a = b

structure Monotonic (route : List Str → Str → Option Str) (valid : List Str → Prop) : Prop where
  defined : ∀ servers key, valid servers → servers ≠ [] → (route servers key).isSome = true
  add : ∀ servers s key, valid (servers ++ [s]) → s ∉ servers →
    route (servers ++ [s]) key = route servers key ∨ route (servers ++ [s]) key = some s
  remove : ∀ servers s key, valid servers → s ∈ servers → route servers key ≠ some s →
    route (servers.filter (· != s)) key = route servers key
  order : ∀ servers servers' key, valid servers → servers.Perm servers' →
    route servers key = route servers' key

section Ring

variable {getHash : Str → SizeT} {names names' : List Str} {key name : Str}

theorem findNode_eq_next (m : HashMap) (key : Str)
    : findNode getHash m key = (m.next (getHash key)).map Prod.snd := by
  unfold findNode OrderedMap.next
  dsimp only
  cases m.upperBound (getHash key) with
  | none => rfl
  | some e => rfl

theorem mem_putAll {m : HashMap} {known : List Str} (hno : NoCollision getHash (known ++ names))
    (hm : ∀ e, e ∈ m.entries ↔ ∃ name ∈ known, e = (getHash name, name)) {e : SizeT × Str}
    : e ∈ (putAll getHash names m).entries ↔ ∃ name ∈ known ++ names, e = (getHash name, name) := by
  induction names generalizing m known with
  | nil =>
    rw [List.append_nil]
    apply hm
  | cons name names ih =>
    have happend : known ++ name :: names = known ++ [name] ++ names := by simp
    rw [happend] at hno ⊢
    apply ih hno
    intro e
    rw [OrderedMap.mem_insert, hm]
    constructor
    . rintro (heq | ⟨_, name', hname', heq⟩)
      . exact ⟨name, by simp, heq⟩
      . exact ⟨name', by simp [hname'], heq⟩
    . rintro ⟨name', hname', heq⟩
      by_cases hsame : name' = name
      . rw [hsame] at heq
        exact .inl heq
      . refine .inr ⟨?_, name', ?_, heq⟩
        . rw [heq]
          intro hhash
          apply hsame
          apply hno _ _ _ _ hhash
          . exact List.mem_append_left names hname'
          . simp
        . rw [List.mem_append, List.mem_singleton] at hname'
          exact hname'.resolve_right hsame

def ring (getHash : Str → SizeT) (names : List Str) : HashMap :=
  putAll getHash names .empty

theorem mem_ring (hno : NoCollision getHash names) {e : SizeT × Str}
    : e ∈ (ring getHash names).entries ↔ ∃ name ∈ names, e = (getHash name, name) := by
  have hmem := @mem_putAll getHash names .empty [] hno (by simp [OrderedMap.empty]) e
  rwa [List.nil_append] at hmem

theorem mem_keys_ring (hno : NoCollision getHash names) {k : SizeT}
    : k ∈ (ring getHash names).keys ↔ ∃ name ∈ names, getHash name = k := by
  unfold OrderedMap.keys
  constructor
  . rintro ⟨v, hv⟩
    rw [mem_ring hno] at hv
    obtain ⟨name, hname, heq⟩ := hv
    rw [Prod.mk.injEq] at heq
    exact ⟨name, hname, heq.left.symm⟩
  . rintro ⟨name, hname, heq⟩
    refine ⟨name, ?_⟩
    rw [mem_ring hno]
    exact ⟨name, hname, by rw [heq]⟩

theorem findNode_ring_iff (hno : NoCollision getHash names)
    : findNode getHash (ring getHash names) key = some name
        ↔
      name ∈ names ∧ IsNext (ring getHash names).keys (getHash key) (getHash name) := by
  have hvalue : ∀ n ∈ names, ∀ v, (getHash n, v) ∈ (ring getHash names).entries → v = n := by
    intro n hn v hv
    rw [mem_ring hno] at hv
    obtain ⟨n', hn', heq⟩ := hv
    rw [Prod.mk.injEq] at heq
    rw [heq.right]
    exact (hno n hn n' hn' heq.left).symm
  rw [findNode_eq_next, Option.map_eq_some_iff]
  constructor
  . rintro ⟨e, hnext, hname⟩
    obtain ⟨hmem, hisNext⟩ := OrderedMap.isNext_of_next hnext
    rw [mem_ring hno] at hmem
    obtain ⟨n, hn, heq⟩ := hmem
    subst heq
    dsimp only at hname hisNext
    rw [← hname]
    exact ⟨hn, hisNext⟩
  . rintro ⟨hname, hisNext⟩
    refine ⟨(getHash name, name), ?_, rfl⟩
    rw [OrderedMap.next_eq_some_iff (hvalue name hname)]
    refine ⟨?_, hisNext⟩
    rw [mem_ring hno]
    exact ⟨name, hname, rfl⟩

theorem NoCollision.of_subset (hno : NoCollision getHash names') (hsub : ∀ n ∈ names, n ∈ names')
    : NoCollision getHash names :=
  fun a ha b hb => hno a (hsub a ha) b (hsub b hb)

theorem findNode_of_subset (hno : NoCollision getHash names') (hsub : ∀ n ∈ names, n ∈ names')
    (h : findNode getHash (ring getHash names') key = some name) (hmem : name ∈ names)
    : findNode getHash (ring getHash names) key = some name := by
  have hno' := hno.of_subset hsub
  rw [findNode_ring_iff hno] at h
  rw [findNode_ring_iff hno']
  refine ⟨hmem, ?_⟩
  apply h.right.of_subset
  . intro k hk
    rw [mem_keys_ring hno'] at hk
    rw [mem_keys_ring hno]
    obtain ⟨n, hn, heq⟩ := hk
    exact ⟨n, hsub n hn, heq⟩
  . rw [mem_keys_ring hno']
    exact ⟨name, hmem, rfl⟩

theorem findNode_isSome (hno : NoCollision getHash names) (hne : names ≠ [])
    : ∃ name ∈ names, findNode getHash (ring getHash names) key = some name := by
  cases hfind : findNode getHash (ring getHash names) key with
  | none =>
    rw [findNode_eq_next, Option.map_eq_none_iff, OrderedMap.next_eq_none_iff] at hfind
    obtain ⟨name, hname⟩ := List.exists_mem_of_ne_nil names hne
    have hmem := (mem_ring hno).mpr ⟨name, hname, rfl⟩
    rw [hfind] at hmem
    simp at hmem
  | some name => exact ⟨name, ((findNode_ring_iff hno).mp hfind).left, rfl⟩

theorem findNode_congr (hno : NoCollision getHash names) (hiff : ∀ n, n ∈ names ↔ n ∈ names')
    : findNode getHash (ring getHash names) key = findNode getHash (ring getHash names') key := by
  by_cases hne : names = []
  . subst hne
    have hnil : names' = [] := by
      rw [List.eq_nil_iff_forall_not_mem]
      intro n hn
      simpa using (hiff n).mpr hn
    rw [hnil]
  . obtain ⟨name, hname, hfind⟩ := @findNode_isSome getHash names key hno hne
    have hfind' := findNode_of_subset hno (fun n hn => (hiff n).mpr hn) hfind ((hiff name).mp hname)
    rw [hfind, hfind']

end Ring

namespace NoVirtualNode

def Valid (getHash : Str → SizeT) (servers : List Str) : Prop :=
  NoCollision getHash servers

variable {getHash : Str → SizeT}

theorem getServer_eq (servers : List Str) (key : Str)
    : getServer getHash servers key = findNode getHash (ring getHash servers) key :=
  rfl

theorem monotonic : Monotonic (getServer getHash) (Valid getHash) := by
  constructor
  . intro servers key hvalid hne
    obtain ⟨name, _, hfind⟩ := @findNode_isSome getHash servers key hvalid hne
    rw [getServer_eq, hfind]
    rfl
  . intro servers s key hvalid _
    obtain ⟨name, hname, hfind⟩ := @findNode_isSome getHash (servers ++ [s]) key hvalid (by simp)
    rw [List.mem_append, List.mem_singleton] at hname
    rw [getServer_eq, getServer_eq, hfind]
    rcases hname with hold | hnew
    . rw [findNode_of_subset hvalid (fun n hn => List.mem_append_left _ hn) hfind hold]
      exact .inl rfl
    . rw [hnew]
      exact .inr rfl
  . intro servers s key hvalid hs hroute
    obtain ⟨name, hname, hfind⟩ :=
      @findNode_isSome getHash servers key hvalid (List.ne_nil_of_mem hs)
    rw [getServer_eq, hfind] at hroute
    rw [getServer_eq, getServer_eq, hfind]
    apply findNode_of_subset hvalid _ hfind
    . rw [List.mem_filter, bne_iff_ne]
      exact ⟨hname, fun heq => hroute (by rw [heq])⟩
    . intro n hn
      exact (List.mem_filter.mp hn).left
  . intro servers servers' key hvalid hperm
    rw [getServer_eq, getServer_eq]
    apply findNode_congr hvalid
    intro n
    exact hperm.mem_iff

end NoVirtualNode

namespace VirtualNode

def Valid (getHash : Str → SizeT) (servers : List Str) : Prop :=
  NoCollision getHash (servers.flatMap virtualNodes) ∧ ∀ server ∈ servers, 38 ∉ server

variable {getHash : Str → SizeT}

theorem buildMap_eq (servers : List Str)
    : buildMap getHash servers = ring getHash (servers.flatMap virtualNodes) := by
  unfold buildMap ring putAll
  rw [List.foldl_flatMap]

theorem getServer_eq (servers : List Str) (key : Str)
    : getServer getHash servers key
        =
      (findNode getHash (ring getHash (servers.flatMap virtualNodes)) key).map serverName := by
  rw [getServer, buildMap_eq]

theorem serverName_of_mem {server name : Str} (h : 38 ∉ server) (hname : name ∈ virtualNodes server)
    : serverName name = server := by
  unfold virtualNodes at hname
  rw [List.mem_map] at hname
  obtain ⟨j, _, rfl⟩ := hname
  have hfind : Search.find [38] (virtualNodeName server j) = some server.length := by
    rw [virtualNodeName, List.append_assoc]
    have hself := @Search.find_append_self_of_not_mem _ _ 38 [] server
      ([38, 86, 78] ++ Decimal.nat j) h
    simpa using hself
  rw [serverName, hfind]
  dsimp only
  rw [virtualNodeName, List.append_assoc, List.take_left]

theorem flatMap_ne_nil {servers : List Str} (h : servers ≠ []) : servers.flatMap virtualNodes ≠ [] := by
  obtain ⟨server, hserver⟩ := List.exists_mem_of_ne_nil servers h
  intro hnil
  rw [List.flatMap_eq_nil_iff] at hnil
  have := hnil server hserver
  simp [virtualNodes, VIRTUAL_NODE_NUM] at this

theorem flatMap_subset {servers servers' : List Str} (h : ∀ n ∈ servers, n ∈ servers')
    : ∀ n ∈ servers.flatMap virtualNodes, n ∈ servers'.flatMap virtualNodes := by
  intro n hn
  rw [List.mem_flatMap] at hn ⊢
  obtain ⟨server, hserver, hn⟩ := hn
  exact ⟨server, h server hserver, hn⟩

theorem exists_node {servers : List Str} (hvalid : Valid getHash servers) (hne : servers ≠ []) (key : Str)
    : ∃ server ∈ servers, ∃ name ∈ virtualNodes server,
        findNode getHash (ring getHash (servers.flatMap virtualNodes)) key = some name
          ∧ serverName name = server := by
  obtain ⟨name, hname, hfind⟩ := @findNode_isSome getHash _ key hvalid.left (flatMap_ne_nil hne)
  rw [List.mem_flatMap] at hname
  obtain ⟨server, hserver, hname⟩ := hname
  exact ⟨server, hserver, name, hname, hfind, serverName_of_mem (hvalid.right server hserver) hname⟩

theorem monotonic : Monotonic (getServer getHash) (Valid getHash) := by
  constructor
  . intro servers key hvalid hne
    obtain ⟨_, _, name, _, hfind, _⟩ := exists_node hvalid hne key
    rw [getServer_eq, hfind]
    rfl
  . intro servers s key hvalid _
    obtain ⟨server, hserver, name, hname, hfind, hcut⟩ := exists_node hvalid (by simp) key
    rw [List.mem_append, List.mem_singleton] at hserver
    rw [getServer_eq, getServer_eq, hfind]
    rcases hserver with hold | hnew
    . have hmem : name ∈ servers.flatMap virtualNodes := List.mem_flatMap.mpr ⟨server, hold, hname⟩
      rw [findNode_of_subset hvalid.left (flatMap_subset fun n hn => List.mem_append_left _ hn) hfind hmem]
      exact .inl rfl
    . rw [Option.map_some, hcut, hnew]
      exact .inr rfl
  . intro servers s key hvalid hs hroute
    obtain ⟨server, hserver, name, hname, hfind, hcut⟩ :=
      exists_node hvalid (List.ne_nil_of_mem hs) key
    rw [getServer_eq, hfind, Option.map_some, hcut] at hroute
    rw [getServer_eq, getServer_eq, hfind]
    have hstays : server ∈ servers.filter (· != s) := by
      rw [List.mem_filter, bne_iff_ne]
      exact ⟨hserver, fun heq => hroute (by rw [heq])⟩
    have hmem : name ∈ (servers.filter (· != s)).flatMap virtualNodes :=
      List.mem_flatMap.mpr ⟨server, hstays, hname⟩
    rw [findNode_of_subset hvalid.left (flatMap_subset fun n hn => (List.mem_filter.mp hn).left) hfind hmem]
  . intro servers servers' key hvalid hperm
    rw [getServer_eq, getServer_eq]
    congr 1
    apply findNode_congr hvalid.left
    intro n
    constructor
    . exact flatMap_subset (fun server => hperm.mem_iff.mp) n
    . exact flatMap_subset (fun server => hperm.mem_iff.mpr) n

end VirtualNode

theorem getServer_monotonic (getHash : Str → SizeT)
    : Monotonic (NoVirtualNode.getServer getHash) (NoVirtualNode.Valid getHash)
        ∧ Monotonic (VirtualNode.getServer getHash) (VirtualNode.Valid getHash) :=
  ⟨NoVirtualNode.monotonic, VirtualNode.monotonic⟩

def byteSum (s : Str) : SizeT :=
  ⟨s.foldl (fun n b => n + b.toNat) 0 % 18446744073709551616, Nat.mod_lt _ (by decide)⟩

-- Two servers with the keys between them: a third one takes over only what goes to it, and gives it back when it leaves.
theorem getServer_monotonic_byteSum
    : NoVirtualNode.getServer byteSum [[200], [100]] [150] = some [200]
        ∧ (∀ key, NoVirtualNode.getServer byteSum ([[200], [100]] ++ [[160]]) key
              = NoVirtualNode.getServer byteSum [[200], [100]] key
            ∨ NoVirtualNode.getServer byteSum ([[200], [100]] ++ [[160]]) key = some [160])
        ∧ (∀ key, VirtualNode.getServer byteSum ([[200]] ++ [[100]]) key = VirtualNode.getServer byteSum [[200]] key
            ∨ VirtualNode.getServer byteSum ([[200]] ++ [[100]]) key = some [100])
        ∧ VirtualNode.getServer byteSum [[200], [100]] [255, 200]
          = VirtualNode.getServer byteSum [[100], [200]] [255, 200] := by
  have hmonotonic := getServer_monotonic byteSum
  have hvalid : VirtualNode.Valid byteSum [[200], [100]] := by
    unfold VirtualNode.Valid NoCollision
    decide
  refine ⟨by decide, ?_, ?_, ?_⟩
  . intro key
    apply hmonotonic.left.add _ _ key
    . unfold NoVirtualNode.Valid NoCollision
      decide
    . decide
  . intro key
    exact hmonotonic.right.add _ _ key hvalid (by decide)
  . exact hmonotonic.right.order _ _ _ hvalid (List.Perm.swap _ _ _)

end HashConsistence
