import BadgerBTree.Page
import BadgerBTree.BufMgr
import BadgerBTree.Loops
import BadgerBTree.Index
import BadgerBTree.Lifecycle
import BadgerBTree.Pins
import BadgerBTree.Tree
import BadgerBTree.Search
import BadgerBTree.StartScan
import BadgerBTree.ScanNext
import BadgerBTree.Insert
import BadgerBTree.Footprint
import BadgerBTree.Construct
import BadgerBTree.InPlace
import BadgerBTree.LeafSplit
import BadgerBTree.Context
import BadgerBTree.Grow
import BadgerBTree.Build
import BadgerBTree.Session
import BadgerBTree.Lookup
