import CodingChallenges.RedisSession
import CodingChallenges.RedisExpiry

/-! DEL with any number of keys: what it removes, and what it counts. -/
namespace CodingChallenges
namespace RedisDeletion

open CText CMemory ChainedTable RedisDb RedisResp RedisParser RedisServer RedisCommands RedisReplies
  RedisSession
open RedisExpiry (Reachable wellFormed_of_reachable)

def present (db : HashTab) (keys : List CString) : Finset CString :=
  keys.toFinset.filter fun key => (lookup db key).isSome

theorem lookup_foldl_delOne_mem {key : CString} (keys : List CString) {r : HashTab × ℤ}
    (hw : layout.WellFormed r.1) (hk : key ∈ keys) : lookup (keys.foldl delOne r).1 key = none := by
  induction keys generalizing r with
  | nil => simp at hk
  | cons k keys ih =>
    rw [List.foldl_cons]
    by_cases hm : key ∈ keys
    · exact ih (wellFormed_undef hw) hm
    · have he : key = k := (List.mem_cons.mp hk).resolve_right hm
      rw [lookup_foldl_delOne keys hm,he]
      exact lookup_undef_self hw

theorem present_undef {db : HashTab} (hw : layout.WellFormed db) (key : CString) (keys : List CString) :
    present (undef db key).1 keys = (present db keys).erase key := by
  ext k
  simp only [present,Finset.mem_filter,Finset.mem_erase]
  by_cases hk : k = key
  · subst hk
    simp [lookup_undef_self hw]
  · rw [lookup_undef_other hk]
    tauto

theorem present_cons (db : HashTab) (key : CString) (keys : List CString) :
    present db (key :: keys) =
      if (lookup db key).isSome then insert key (present db keys) else present db keys := by
  rw [present,List.toFinset_cons,Finset.filter_insert]
  rfl

/-- The loop counts each key that had an entry once, wherever and however often it stands. -/
theorem count_foldl_delOne (keys : List CString) {db : HashTab} (hw : layout.WellFormed db) (d : ℤ) :
    (keys.foldl delOne (db,d)).2 = d+(present db keys).card := by
  induction keys generalizing db d with
  | nil => simp [present]
  | cons key keys ih =>
    have hfound : (dbDel db key).2 = (lookup db key).isSome := undef_found
    have hrest := ih (show layout.WellFormed (undef db key).1 from wellFormed_undef hw)
      (d+if (lookup db key).isSome then 1 else 0)
    rw [present_undef hw] at hrest
    rw [List.foldl_cons,delOne,hfound]
    refine hrest.trans ?_
    rw [present_cons]
    by_cases hs : (lookup db key).isSome
    · rw [if_pos hs,if_pos hs,← Finset.card_erase_add_one (Finset.mem_insert_self key (present db keys)),
        Finset.erase_insert_eq_erase]
      push_cast
      omega
    · have hn : key ∉ present db keys := by simp [present,hs]
      rw [if_neg hs,if_neg hs,Finset.erase_eq_of_notMem hn,add_zero]

/-- The reply to a DEL of `n` keys of which `count` had an entry. -/
def replyText (n count : ℕ) : Bytes :=
  if n = 1 then if count = 0 then ascii ":0\r\n" else ascii "+OK\r\n"
  else 58 :: (decimal count ++ crlf)

/-- On every array [DEL,k1,..,kn] and any order of its keys: no key of the list is left, every
other key is as it was, and the reply counts each key that had an entry once. Each string is
read up to its first NUL. `Sized` says which arrays are sent. -/
def DelCorrect (Sized : List Bytes → Prop) : Prop :=
  ∀ (db : HashTab) (now : UInt64) (del : Bytes) (keys : List Bytes),
    Reachable db → commandOf (cut del) = some .DEL → Sized (del :: keys) →
    ∃ db' reply, serve db (now,del :: keys) = .ok (db',reply) ∧
      (∀ k, k ∈ keys.map cut → lookup db' k = none) ∧
      (∀ k, k ∉ keys.map cut → lookup db' k = lookup db k) ∧
      reply.bytes = replyText keys.length (present db (keys.map cut)).card ∧
      ∀ keys', keys'.Perm keys → ∃ db'',
        serve db (now,del :: keys') = .ok (db'',reply) ∧ ∀ k, lookup db'' k = lookup db' k

theorem delReply_bytes (keys : List CString) (count : ℕ) :
    (delReply keys count).bytes = replyText keys.length count := by
  unfold delReply replyText
  by_cases hn : keys.length = 1
  · rw [if_pos hn,if_pos hn]
    by_cases hc : count = 0
    · subst hc
      rfl
    · rw [if_neg hc,if_pos (by exact_mod_cast hc)]
      rfl
  · rw [if_neg hn,if_neg hn]
    rfl

theorem serve_del {db : HashTab} (hw : layout.WellFormed db) (now : UInt64) {del : Bytes} {keys : List Bytes}
    (hdel : commandOf (cut del) = some .DEL) (hc : CountFits (del :: keys)) (hl : LengthsFit (del :: keys)) :
    serve db (now,del :: keys) =
      .ok (((keys.map cut).foldl delOne (db,0)).1,
        delReply (keys.map cut) (present db (keys.map cut)).card) := by
  have hserve := serve_fits hc hl db now
  rw [List.map_cons] at hserve
  rw [hserve]
  simp only [perform,hdel,count_foldl_delOne (keys.map cut) hw 0,zero_add]

theorem lookup_foldl_delOne_eq {db : HashTab} (hw : layout.WellFormed db) (keys : List CString)
    (k : CString) :
    lookup (keys.foldl delOne (db,0)).1 k = if k ∈ keys then none else lookup db k := by
  split_ifs with hk
  · exact lookup_foldl_delOne_mem keys hw hk
  · exact lookup_foldl_delOne keys hk (db,0)

theorem delCorrect_fits : DelCorrect fun args => CountFits args ∧ LengthsFit args := by
  intro db now del keys hr hdel hsized
  have hw := wellFormed_of_reachable hr
  refine ⟨_,_,serve_del hw now hdel hsized.1 hsized.2,?_,?_,?_,?_⟩
  · intro k hk
    rw [lookup_foldl_delOne_eq hw,if_pos hk]
  · intro k hk
    rw [lookup_foldl_delOne_eq hw,if_neg hk]
  · rw [delReply_bytes,List.length_map]
  · intro keys' hperm
    have hcut := hperm.map cut
    have hcount : CountFits (del :: keys') := by
      rw [CountFits,(hperm.cons del).length_eq]
      exact hsized.1
    have hlengths : LengthsFit (del :: keys') := fun a ha => hsized.2 a ((hperm.cons del).mem_iff.mp ha)
    have hpresent : present db (keys'.map cut) = present db (keys.map cut) := by
      rw [present,present,List.toFinset_eq_of_perm _ _ hcut]
    have hreply (n : ℤ) : delReply (keys'.map cut) n = delReply (keys.map cut) n := by
      rw [delReply,delReply,hcut.length_eq]
    have hserve := serve_del hw now hdel hcount hlengths
    rw [hpresent,hreply] at hserve
    refine ⟨_,hserve,fun k => ?_⟩
    rw [lookup_foldl_delOne_eq hw,lookup_foldl_delOne_eq hw]
    simp only [hcut.mem_iff]

def sharedStore : HashTab :=
  dbSet (dbSet (dbSet emptyTab (lit "ab") (lit "1")) (lit "bA") (lit "2")) (lit "k") (lit "3")

theorem reachable_sharedStore : Reachable sharedStore :=
  ⟨[.access (.set (lit "ab") (lit "1")),.access (.set (lit "bA") (lit "2")),.access (.set (lit "k") (lit "3"))],
    _,rfl⟩

theorem delCorrect_fits_shared : ∃ db' reply,
    serve sharedStore (0,[ascii "del",ascii "ab",ascii "x",ascii "k",ascii "ab"]) = .ok (db',reply) ∧
      reply.bytes = ascii ":2\r\n" ∧ lookup db' (lit "bA") = some ⟨lit "bA",lit "2",0⟩ := by
  obtain ⟨db',reply,hs,_,hother,hreply,_⟩ := delCorrect_fits sharedStore 0 (ascii "del")
    [ascii "ab",ascii "x",ascii "k",ascii "ab"] reachable_sharedStore (by decide) ⟨by decide,by decide⟩
  exact ⟨db',reply,hs,hreply.trans (by decide),(hother (lit "bA") (by decide)).trans (by decide)⟩

theorem not_delCorrect_long (v : Bytes) (hv : v.length = 2^31) : ¬ DelCorrect CountFits := by
  intro h
  obtain ⟨_,_,hok,_⟩ := h emptyTab 0 (ascii "DEL") [v] ⟨[],[],rfl⟩ (by decide) (by simp [CountFits,INT_MAX])
  have hstop := serve_tooLong emptyTab 0 [ascii "DEL"] (by simp [CountFits,INT_MAX]) (by decide) hv
  have hfault := hstop.symm.trans hok
  contradiction

theorem not_delCorrect_many (keys : List Bytes) (hk : keys.length = 2^32) (hx : ∀ a ∈ keys, a = ascii "k") :
    ¬ DelCorrect LengthsFit := by
  intro h
  have hserve : serve sharedStore (0,ascii "DEL" :: keys) = .ok (sharedStore,respInteger 0) :=
    (serve_tooMany sharedStore 0 [ascii "DEL"] (by simp [CountFits,INT_MAX]) (by decide) hk).trans rfl
  have hfit : LengthsFit (ascii "DEL" :: keys) := lengthsFit_copies [ascii "DEL"] (by decide) hx
  obtain ⟨db',reply,hok,hgone,_⟩ := h sharedStore 0 (ascii "DEL") keys reachable_sharedStore (by decide) hfit
  obtain ⟨rfl,rfl⟩ := Prod.mk.inj (Except.ok.inj (hserve.symm.trans hok))
  obtain ⟨a,ha⟩ := List.exists_mem_of_length_pos (by omega : 0 < keys.length)
  have hnone := hgone (cut a) (List.mem_map.mpr ⟨a,ha,rfl⟩)
  rw [hx a ha] at hnone
  exact absurd hnone (by decide)

/-- Both bounds are needed. -/
theorem delCorrect_needs_bounds :
    ¬ DelCorrect (fun _ => True) ∧ ¬ DelCorrect CountFits ∧ ¬ DelCorrect LengthsFit := by
  have hlong := not_delCorrect_long (letters (2^31)).bytes (letters_length _)
  refine ⟨fun h => hlong fun db now del keys hr hdel _ => h db now del keys hr hdel trivial,hlong,?_⟩
  exact not_delCorrect_many (List.replicate (2^32) (ascii "k")) List.length_replicate
    fun a ha => List.eq_of_mem_replicate ha

end RedisDeletion
end CodingChallenges
