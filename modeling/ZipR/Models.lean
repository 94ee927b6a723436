import ZipR.JsonTree
import ZipR.Platform

/-! # Posts and comments

The records the app writes: `Post.swift`, `Comment.swift` and `CurrentUser.swift`.  An initialiser
that draws a UUID takes the drawn text as its first argument `uuid`.

* A post keeps the id it is given and draws one otherwise; a comment always draws a new one, also
  when it is decoded.
* `dictionaryRepresentation` force-unwraps the id, hence the `Except`.
* `Post.readBack` is what is left of a post after a round trip through the store: an empty tag
  list is not stored and comes back as the default tag (`Post.initDictionary_stored`).
* `Comment.initDictionary_stored`: a comment comes back with a fresh id. -/

namespace ZipR

open JsonTree

inductive Tag where
  | general | art | news | videogames | sports | food
deriving DecidableEq, Repr

namespace Tag

def rawValue : Tag → String
  | general => "general"
  | art => "art"
  | news => "news"
  | videogames => "videogames"
  | sports => "sports"
  | food => "food"

def allCases : List Tag := [general, art, news, videogames, sports, food]

end Tag

/-- The signed-in user as the controllers see it. -/
structure CurrentUser where
  name : String
  longitude : Option String
  latitude : Option String
deriving DecidableEq, Repr

/-! ### Posts -/

structure Post where
  author : String
  title : String
  description : String
  tag : Option (List String)
  long : Option String
  lat : Option String
  id : Option String
  date : String
deriving DecidableEq, Repr

namespace Post

/-- The default of the initialiser's `tag` parameter. -/
def defaultTag : List String := [Tag.general.rawValue]

def init (uuid authorName title description : String) (tag : List String) (long lat : String)
    (id : Option String) (date : String) : Post where
  author := authorName
  title := title
  description := description
  tag := some tag
  long := some long
  lat := some lat
  id := if id = none then some uuid else id
  date := date

/-- `init?(dictionary:)`.  The id is given, so no UUID is drawn. -/
def initDictionary (dictionary : List (String × Json)) : Option Post := do
  let author ← (Json.lookup "author" dictionary).asString
  let identifier ← (Json.lookup "id" dictionary).asString
  let description ← (Json.lookup "description" dictionary).asString
  let title ← (Json.lookup "title" dictionary).asString
  let latitude ← (Json.lookup "latitude" dictionary).asString
  let longitude ← (Json.lookup "longitude" dictionary).asString
  let date := (Json.lookup "date" dictionary).asString
  match (Json.lookup "tags" dictionary).asStrings with
  | some tags =>
      return init "" author title description tags longitude latitude (some identifier)
        (date.getD "")
  | none =>
      return init "" author title description defaultTag longitude latitude (some identifier)
        (date.getD "")

def dictionaryRepresentation (p : Post) : Except Trap (List (String × Json)) :=
  match p.id with
  | none => .error .unexpectedlyNil
  | some id => .ok [
      ("author", .string p.author),
      ("title", .string p.title),
      ("description", .string p.description),
      -- a nil array in a dictionary of `Any` is bridged to `NSNull`
      ("tags", match p.tag with
        | some tag => .array (tag.map .string)
        | none => .null),
      ("id", .string id),
      ("latitude", .string (p.lat.getD "")),
      ("longitude", .string (p.long.getD "")),
      ("date", .string p.date)]

/-- The post as it is decoded from its own record in the store. -/
def readBack (p : Post) : Post :=
  { p with tag := p.tag.map fun tag => if tag = [] then defaultTag else tag }

@[simp] theorem readBack_id (p : Post) : p.readBack.id = p.id := rfl

/-- Every optional field is set, as the initialiser does. -/
structure Complete (p : Post) : Prop where
  tag : p.tag.isSome
  long : p.long.isSome
  lat : p.lat.isSome
  id : p.id.isSome

theorem init_complete (uuid authorName title description : String) (tag : List String)
    (long lat : String) (id : Option String) (date : String) :
    (init uuid authorName title description tag long lat id date).Complete := by
  refine ⟨rfl, rfl, rfl, ?_⟩
  cases id <;> rfl

/-- Encoding a complete post does not trap. -/
theorem Complete.dictionaryRepresentation {p : Post} (h : p.Complete) :
    ∃ dictionary, p.dictionaryRepresentation = .ok dictionary := by
  obtain ⟨id, hid⟩ := Option.isSome_iff_exists.mp h.id
  exact ⟨_, by rw [Post.dictionaryRepresentation, hid]⟩

/-- **A stored post is decoded as its `readBack`.** -/
theorem initDictionary_stored {p : Post} (h : p.Complete) {dictionary : List (String × Json)}
    (hd : p.dictionaryRepresentation = .ok dictionary) :
    initDictionary (Json.pruneEntries dictionary) = some p.readBack := by
  obtain ⟨author, title, description, tag, long, lat, id, date⟩ := p
  obtain ⟨tag, rfl⟩ := Option.isSome_iff_exists.mp h.tag
  obtain ⟨long, rfl⟩ := Option.isSome_iff_exists.mp h.long
  obtain ⟨lat, rfl⟩ := Option.isSome_iff_exists.mp h.lat
  obtain ⟨id, rfl⟩ := Option.isSome_iff_exists.mp h.id
  simp only [Post.dictionaryRepresentation, Except.ok.injEq] at hd
  subst hd
  cases tag with
  | nil =>
      simp [initDictionary, Json.lookup_pruneEntries, Json.prune, Json.pruneList, Json.ofElements,
        Json.asStrings, readBack, init]
  | cons t ts =>
      have hts : ((Json.array ((t :: ts).map .string)).prune).asStrings = some (t :: ts) := by
        rw [Json.prune_array_map_string]
        exact Json.asStrings_map_string (t :: ts)
      rw [List.map_cons] at hts
      simp [initDictionary, Json.lookup_pruneEntries, hts, readBack, init]

/-- The record of a post is not empty. -/
theorem pruneEntries_dictionaryRepresentation_ne_nil {p : Post} {dictionary : List (String × Json)}
    (h : p.Complete) (hd : p.dictionaryRepresentation = .ok dictionary) :
    Json.pruneEntries dictionary ≠ [] := by
  intro he
  have := initDictionary_stored h hd
  rw [he] at this
  simp [initDictionary, Json.asString] at this

end Post

/-! ### Comments -/

structure Comment where
  author : String
  description : String
  id : Option String
  postID : String
deriving DecidableEq, Repr

namespace Comment

/-- The initialiser ignores its `id` argument. -/
def init (uuid authorName description : String) (_id : Option String) (postID : String) :
    Comment where
  author := authorName
  description := description
  id := some uuid
  postID := postID

def initDictionary (uuid : String) (dictionary : List (String × Json)) : Option Comment := do
  let author ← (Json.lookup "author" dictionary).asString
  let identifier ← (Json.lookup "id" dictionary).asString
  let description ← (Json.lookup "description" dictionary).asString
  let postID ← (Json.lookup "postID" dictionary).asString
  return init uuid author description (some identifier) postID

def dictionaryRepresentation (c : Comment) : Except Trap (List (String × Json)) :=
  match c.id with
  | none => .error .unexpectedlyNil
  | some id => .ok [
      ("author", .string c.author),
      ("description", .string c.description),
      ("id", .string id),
      ("postID", .string c.postID)]

/-- What a reader of a comment sees: everything but its id. -/
def content (c : Comment) : String × String × String := (c.author, c.description, c.postID)

/-- **A stored comment is decoded with its content and a fresh id.** -/
theorem initDictionary_stored {c : Comment} {dictionary : List (String × Json)}
    (hd : c.dictionaryRepresentation = .ok dictionary) (uuid : String) :
    initDictionary uuid (Json.pruneEntries dictionary) = some { c with id := some uuid } := by
  obtain ⟨author, description, id, postID⟩ := c
  cases id with
  | none => cases hd
  | some id =>
      simp only [Comment.dictionaryRepresentation, Except.ok.injEq] at hd
      subst hd
      simp [initDictionary, Json.lookup_pruneEntries, init]

/-- The drawn UUID does not show in the content. -/
theorem content_initDictionary (uuid uuid' : String) (dictionary : List (String × Json)) :
    (initDictionary uuid dictionary).map content = (initDictionary uuid' dictionary).map content := by
  simp only [initDictionary]
  cases (Json.lookup "author" dictionary).asString <;>
    cases (Json.lookup "id" dictionary).asString <;>
    cases (Json.lookup "description" dictionary).asString <;>
    cases (Json.lookup "postID" dictionary).asString <;> rfl

theorem pruneEntries_dictionaryRepresentation_ne_nil {c : Comment}
    {dictionary : List (String × Json)} (hd : c.dictionaryRepresentation = .ok dictionary) :
    Json.pruneEntries dictionary ≠ [] := by
  intro he
  have := initDictionary_stored hd ""
  rw [he] at this
  simp [initDictionary, Json.asString] at this

end Comment
end ZipR
